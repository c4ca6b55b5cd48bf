import PropertyList.Proofs.Token.Lexing

/-!
# Cutting byte strings into tokens

A document is a byte string, and its tokens can be found without reading it as a text: by the rules
for words, quoted strings, marks and blanks, applied to bytes. This says what the tokens of a
document are where the bytes spell no characters, or where a backslash stands inside of one.

Scanning the text of a document comes to the same, for every byte string. All that the rules look
for are ASCII characters. Each of these is a byte of its own, and no other point of a text has an
ASCII byte.

## Main definitions

* `ByteToken`, `ByteFault`, `Bytes.front`, a cut of a byte string
* `ByteScan`, `Bytes.scan`, all cuts
* `Scan.encode`, the tokens of a text as those of its bytes

## Main results

* `front_encode` : a cut of a text is a cut of its bytes.
* `scan_decode` : the tokens of a document are those of its bytes.
-/

namespace PropertyList

/-! ### The rules for bytes -/

/-- A token of a byte string. -/
inductive ByteToken where
  | mark (m : Mark)
  | word (value : Bytes)
  | quoted (value : Bytes)
  | ending
  deriving DecidableEq, Repr

/-- Why a byte string cannot be cut. -/
inductive ByteFault where
  | unterminatedComment
  | unterminatedQuote
  | unexpected (b : UInt8)
  deriving DecidableEq, Repr

/-- The byte of a mark. -/
def Mark.byte : Mark → UInt8
  | openBrace => 0x7B
  | closeBrace => 0x7D
  | openParen => 0x28
  | closeParen => 0x29
  | equals => 0x3D
  | semicolon => 0x3B
  | comma => 0x2C

/-- The mark that a byte is. -/
def Mark.ofByte? (b : UInt8) : Option Mark :=
  [openBrace, closeBrace, openParen, closeParen, equals, semicolon, comma].find? fun m =>
    b = m.byte

namespace Bytes

/-- Whether a byte is a space, a tab, a carriage return or a line feed. -/
def isSpace (b : UInt8) : Bool :=
  b = 0x20 || b = 0x09 || b = 0x0D || b = 0x0A

/-- Whether a byte is one of `A-Z`, `a-z`, `0-9`, `_`, `.` and `$`. -/
def isWord (b : UInt8) : Bool :=
  (0x41 ≤ b && b ≤ 0x5A) || (0x61 ≤ b && b ≤ 0x7A) || (0x30 ≤ b && b ≤ 0x39) || b = 0x5F ||
    b = 0x2E || b = 0x24

/-- Splits what comes after the opening of a comment behind the first asterisk and slash. -/
def splitComment : Bytes → Option (Bytes × Bytes)
  | [] => none
  | b :: rest =>
    if b = 0x2A ∧ rest.head? = some 0x2F then some ([0x2A, 0x2F], rest.tail)
    else (splitComment rest).map fun cut => (b :: cut.1, cut.2)

/-- Splits bytes behind the first line feed. -/
def splitLine : Bytes → Bytes × Bytes
  | [] => ([], [])
  | b :: rest => if b = 0x0A then ([b], rest) else (b :: (splitLine rest).1, (splitLine rest).2)

/-- Splits what comes after a quotation mark behind the mark that closes the string. The first
component is the string: a backslash passes the next byte, which is then `passed`. -/
def splitQuoted (passed : Bool) : Bytes → Option (Bytes × Bytes × Bytes)
  | [] => none
  | b :: rest =>
    if passed then (splitQuoted false rest).map fun cut => (b :: cut.1, b :: cut.2.1, cut.2.2)
    else if b = 0x22 then some ([], [b], rest)
    else if b = 0x5C then (splitQuoted true rest).map fun cut => (cut.1, b :: cut.2.1, cut.2.2)
    else (splitQuoted false rest).map fun cut => (b :: cut.1, b :: cut.2.1, cut.2.2)

end Bytes

/-- What a byte string starts with: a blank or a token, with the bytes taken and the bytes after
them, or neither. -/
inductive ByteFront where
  | blank (taken rest : Bytes)
  | lexeme (token : ByteToken) (taken rest : Bytes)
  | fault (f : ByteFault)
  | ending
  deriving DecidableEq, Repr

/-- The stretch that a cut takes and the bytes after it. -/
def ByteFront.split? : ByteFront → Option (Bytes × Bytes)
  | blank taken rest | lexeme _ taken rest => some (taken, rest)
  | fault _ | ending => none

/-- The first cut of a byte string. -/
def Bytes.front : Bytes → ByteFront
  | [] => .ending
  | b :: rest =>
    if isSpace b then .blank [b] rest
    else if b = 0x2F ∧ rest.head? = some 0x2A then
      match splitComment rest.tail with
      | some (inside, after) => .blank (b :: 0x2A :: inside) after
      | none => .fault .unterminatedComment
    else if b = 0x2F ∧ rest.head? = some 0x2F then
      .blank (b :: 0x2F :: (splitLine rest.tail).1) (splitLine rest.tail).2
    else if b = 0x22 then
      match splitQuoted false rest with
      | some (value, inside, after) => .lexeme (.quoted value) (b :: inside) after
      | none => .fault .unterminatedQuote
    else
      match Mark.ofByte? b with
      | some m => .lexeme (.mark m) [b] rest
      | none =>
        if isWord b then
          .lexeme (.word (b :: rest.takeWhile isWord)) (b :: rest.takeWhile isWord)
            (rest.dropWhile isWord)
        else .fault (.unexpected b)

/-! ### Texts and their bytes -/

/-- A token of a text as a token of its bytes. -/
def Token.encode : Token → ByteToken
  | mark m => .mark m
  | word value => .word value.encode
  | quoted value => .quoted value.encode
  | ending => .ending

/-- A fault of a text as a fault of its bytes. The byte at fault is the first of a point. -/
def LexFault.encode : LexFault → ByteFault
  | unterminatedComment => .unterminatedComment
  | unterminatedQuote => .unterminatedQuote
  | unexpected p => .unexpected (p.encode.headD 0)

/-- A cut of a text as a cut of its bytes. -/
def Front.encode : Front → ByteFront
  | blank taken rest => .blank taken.encode rest.encode
  | lexeme token taken rest => .lexeme token.encode taken.encode rest.encode
  | fault f => .fault f.encode
  | ending => .ending

/-! ### Points and their bytes -/

/-- The bytes of a point behind the first are no ASCII bytes, and the first is one if the point is
that byte. -/
theorem Point.exists_encode_eq_cons (p : Point) :
    ∃ c cs, p.encode = c :: cs ∧ (∀ b ∈ cs, 0x80 ≤ b) ∧
      ∀ a, a < 0x80 → (c = a ↔ p = ofByte a) := by
  rcases p.eq_ofByte_or_le with ⟨b, -, rfl⟩ | hle
  · refine ⟨b, [], encode_ofByte b, List.forall_mem_nil _, fun a _ => ?_⟩
    refine ⟨fun h => h ▸ rfl, fun h => ?_⟩
    have hencode := congrArg encode h
    rw [encode_ofByte, encode_ofByte] at hencode
    exact (List.cons.inj hencode).1
  · obtain ⟨c, cs, hcs⟩ := List.exists_cons_of_ne_nil p.encode_ne_nil
    rw [hcs, List.forall_mem_cons] at hle
    refine ⟨c, cs, hcs, hle.2, fun a ha => ⟨?_, ?_⟩⟩
    · rintro rfl
      exact absurd hle.1 (UInt8.not_le.2 ha)
    · rintro rfl
      rw [encode_ofByte] at hcs
      exact absurd ((List.cons.inj hcs).1 ▸ hle.1) (UInt8.not_le.2 ha)

/-- What is looked for at the front of a text is found at the front of its bytes. -/
theorem Text.head?_encode {t : Text} {a : UInt8} (ha : a < 0x80) :
    t.encode.head? = some a ↔ t.head? = some (.ofByte a) := by
  cases t with
  | nil => simp
  | cons p t =>
    obtain ⟨c, cs, hcs, -, hc⟩ := p.exists_encode_eq_cons
    rw [encode_cons, hcs, List.cons_append, List.head?_cons, List.head?_cons, Option.some.injEq,
      Option.some.injEq]
    exact hc a ha

/-! ### Stretches -/

namespace Bytes

variable {high : Bytes} (hhigh : ∀ b ∈ high, 0x80 ≤ b) (d : Bytes)

include hhigh

private theorem ne_of_high {b a : UInt8} (hb : b ∈ high) (ha : a < 0x80) : b ≠ a :=
  fun h => absurd (h ▸ hhigh b hb) (UInt8.not_le.2 ha)

/-- Bytes that are not ASCII are passed over in a comment. -/
theorem splitComment_append :
    splitComment (high ++ d) = (splitComment d).map fun cut => (high ++ cut.1, cut.2) := by
  induction high with
  | nil => simp
  | cons b high ih =>
    have hb : b ≠ 0x2A := ne_of_high hhigh List.mem_cons_self (by decide)
    rw [List.cons_append, splitComment, if_neg fun h => hb h.1,
      ih fun b hb => hhigh b (List.mem_cons_of_mem _ hb), Option.map_map]
    rfl

/-- Bytes that are not ASCII are passed over in a line. -/
theorem splitLine_append :
    splitLine (high ++ d) = (high ++ (splitLine d).1, (splitLine d).2) := by
  induction high with
  | nil => rfl
  | cons b high ih =>
    have hb : b ≠ 0x0A := ne_of_high hhigh List.mem_cons_self (by decide)
    rw [List.cons_append, splitLine, if_neg hb,
      ih fun b hb => hhigh b (List.mem_cons_of_mem _ hb)]
    rfl

/-- Bytes that are not ASCII stand for themselves in a quoted string. -/
theorem splitQuoted_append :
    splitQuoted false (high ++ d) =
      (splitQuoted false d).map fun cut => (high ++ cut.1, high ++ cut.2.1, cut.2.2) := by
  induction high with
  | nil => simp
  | cons b high ih =>
    have hquote : b ≠ 0x22 := ne_of_high hhigh List.mem_cons_self (by decide)
    have hescape : b ≠ 0x5C := ne_of_high hhigh List.mem_cons_self (by decide)
    rw [List.cons_append, splitQuoted, if_neg Bool.false_ne_true, if_neg hquote, if_neg hescape,
      ih fun b hb => hhigh b (List.mem_cons_of_mem _ hb), Option.map_map]
    rfl

end Bytes

/-- A comment in a text is one in its bytes. -/
theorem splitComment_encode (t : Text) :
    Bytes.splitComment t.encode = (splitComment t).map fun cut => (cut.1.encode, cut.2.encode) := by
  fun_induction splitComment t with
  | case1 => rfl
  | case2 rest => rfl
  | case3 p rest hopen ih =>
    obtain ⟨c, cs, hcs, hhigh, hc⟩ := p.exists_encode_eq_cons
    have hnot : ¬ (c = 0x2A ∧ (cs ++ Text.encode rest).head? = some 0x2F) := by
      rintro ⟨hstar, hslash⟩
      obtain rfl := (hc 0x2A (by decide)).1 hstar
      rw [Point.encode_ofByte] at hcs
      obtain ⟨-, rfl⟩ := List.cons.inj hcs
      have hhead := (Text.head?_encode (a := 0x2F) (by decide)).1 hslash
      obtain ⟨rest', rfl⟩ := List.head?_eq_some_iff.1 hhead
      exact hopen rest' rfl rfl
    rw [Text.encode_cons, hcs, List.cons_append, Bytes.splitComment, if_neg hnot,
      Bytes.splitComment_append hhigh, ih]
    cases splitComment rest with
    | none => rfl
    | some cut => simp [hcs]

/-- A line of a text is one of its bytes. -/
theorem splitLine_encode (t : Text) :
    Bytes.splitLine t.encode = ((splitLine t).1.encode, (splitLine t).2.encode) := by
  induction t with
  | nil => rfl
  | cons p t ih =>
    obtain ⟨c, cs, hcs, hhigh, hc⟩ := p.exists_encode_eq_cons
    rw [splitLine]
    by_cases hp : p = .char '\n'
    · obtain rfl := hp
      rfl
    · have hfeed : c ≠ 0x0A := fun h => hp ((hc 0x0A (by decide)).1 h)
      rw [if_neg hp, Text.encode_cons, hcs, List.cons_append, Bytes.splitLine, if_neg hfeed,
        Bytes.splitLine_append hhigh, ih]
      simp [hcs]

/-- A quoted string in a text is one in its bytes. Of a point behind a backslash the first byte is
passed by the backslash, and the others stand for themselves. -/
theorem splitQuoted_encode (t : Text) :
    Bytes.splitQuoted false t.encode =
      (splitQuoted t).map fun cut => (cut.1.encode, cut.2.1.encode, cut.2.2.encode) := by
  fun_induction splitQuoted t with
  | case1 => rfl
  | case2 rest => rfl
  | case3 p rest ih =>
    obtain ⟨c, cs, hcs, hhigh, -⟩ := p.exists_encode_eq_cons
    have hstart : Text.encode (.char '\\' :: p :: rest) =
        0x5C :: c :: (cs ++ Text.encode rest) := by
      rw [Text.encode_cons, Text.encode_cons, hcs]
      rfl
    rw [hstart, Bytes.splitQuoted, if_neg Bool.false_ne_true, if_neg (by decide), if_pos rfl,
      Bytes.splitQuoted, if_pos rfl, Bytes.splitQuoted_append hhigh, ih]
    cases splitQuoted rest with
    | none => rfl
    | some cut => simp [hcs, show Point.encode (.char '\\') = [0x5C] from rfl]
  | case4 rest _ hlast =>
    cases rest with
    | nil => rfl
    | cons p rest => exact (hlast p rest rfl rfl).elim
  | case5 p rest hquote _ hescape ih =>
    obtain ⟨c, cs, hcs, hhigh, hc⟩ := p.exists_encode_eq_cons
    have hquote' : c ≠ 0x22 := fun h => hquote ((hc 0x22 (by decide)).1 h)
    have hescape' : c ≠ 0x5C := fun h => hescape ((hc 0x5C (by decide)).1 h)
    rw [Text.encode_cons, hcs, List.cons_append, Bytes.splitQuoted, if_neg Bool.false_ne_true,
      if_neg hquote', if_neg hescape', Bytes.splitQuoted_append hhigh, ih]
    cases splitQuoted rest with
    | none => rfl
    | some cut => simp [hcs]

/-! ### Kinds of points -/

/-- A kind that the ASCII bytes share with their points, and of which all other bytes and points
have the same value, is that of the first byte of a point. -/
theorem kind_eq_of_encode {α : Type} {f : UInt8 → α} {g : Point → α} (other : α)
    (hascii : ∀ n : Fin 128, f (UInt8.ofNat n) = g (.ofByte (UInt8.ofNat n)))
    (hbytes : ∀ n : Fin 128, f (UInt8.ofNat (0x80 + n)) = other)
    (hpoints : ∀ p : Point, p.isAscii = false → g p = other) {p : Point} {c : UInt8} {cs : Bytes}
    (hcs : p.encode = c :: cs) : f c = g p := by
  rcases p.eq_ofByte_or_le with ⟨b, hb, rfl⟩ | hle
  · rw [Point.encode_ofByte] at hcs
    obtain ⟨rfl, -⟩ := List.cons.inj hcs
    simpa using hascii ⟨b.toNat, UInt8.lt_iff_toNat_lt.1 hb⟩
  · rw [hcs, List.forall_mem_cons] at hle
    have hc : 0x80 ≤ c.toNat := UInt8.le_iff_toNat_le.1 hle.1
    have hother : p.isAscii = false := by
      by_contra hp
      obtain ⟨b, hb, rfl⟩ := Point.exists_eq_ofByte (Bool.eq_true_of_not_eq_false hp)
      rw [Point.encode_ofByte] at hcs
      exact absurd ((List.cons.inj hcs).1 ▸ hle.1) (UInt8.not_le.2 hb)
    have hlt := c.toNat_lt
    have hsum : 0x80 + (c.toNat - 0x80) = c.toNat := by omega
    have hbyte := hbytes ⟨c.toNat - 0x80, by omega⟩
    rw [hsum, UInt8.ofNat_toNat] at hbyte
    rw [hbyte, hpoints p hother]

variable {p : Point} {c : UInt8} {cs : Bytes}

theorem Point.isAscii_of_isSpace (hp : p.isSpace) : p.isAscii := by
  have hall : ∀ q ∈ [Point.char ' ', .char '\t', .char '\r', .char '\n'], q.isAscii = true := by
    decide
  exact hall p (of_decide_eq_true hp)

theorem Mark.isAscii_of_ofPoint? {m : Mark} (hm : ofPoint? p = some m) : p.isAscii := by
  unfold ofPoint? at hm
  obtain rfl : p = .char m.char := of_decide_eq_true (List.find?_some hm :)
  cases m <;> rfl

theorem isSpace_of_encode (hcs : p.encode = c :: cs) : Bytes.isSpace c = p.isSpace := by
  refine kind_eq_of_encode false (by decide) (by decide) (fun p hp => ?_) hcs
  refine Bool.eq_false_iff.2 fun hspace => ?_
  rw [Point.isAscii_of_isSpace hspace] at hp
  cases hp

theorem isWord_of_encode (hcs : p.encode = c :: cs) : Bytes.isWord c = p.isWord := by
  refine kind_eq_of_encode false (by decide) (by decide) (fun p hp => ?_) hcs
  refine Bool.eq_false_iff.2 fun hword => ?_
  rw [Point.isAscii_of_isWord hword] at hp
  cases hp

theorem ofByte?_of_encode (hcs : p.encode = c :: cs) : Mark.ofByte? c = Mark.ofPoint? p := by
  refine kind_eq_of_encode none (by decide) (by decide) (fun p hp => ?_) hcs
  refine Option.eq_none_iff_forall_ne_some.2 fun m hm => ?_
  rw [Mark.isAscii_of_ofPoint? hm] at hp
  cases hp

/-- An ASCII character is a byte. -/
theorem exists_encode_eq_singleton (hp : p.isAscii) : ∃ c, p.encode = [c] := by
  obtain ⟨b, -, rfl⟩ := Point.exists_eq_ofByte hp
  exact ⟨b, Point.encode_ofByte b⟩

/-- The points of a word are its bytes. -/
theorem takeWhile_encode (t : Text) :
    t.encode.takeWhile Bytes.isWord = Text.encode (t.takeWhile Point.isWord) ∧
      t.encode.dropWhile Bytes.isWord = Text.encode (t.dropWhile Point.isWord) := by
  induction t with
  | nil => exact ⟨rfl, rfl⟩
  | cons p t ih =>
    obtain ⟨c, cs, hcs, -⟩ := p.exists_encode_eq_cons
    have hkind := isWord_of_encode hcs
    cases hword : p.isWord with
    | true =>
      obtain ⟨b, hb⟩ := exists_encode_eq_singleton (Point.isAscii_of_isWord hword)
      obtain ⟨rfl, rfl⟩ := List.cons.inj (hb.symm.trans hcs)
      rw [hword] at hkind
      simp [hword, hkind, hb, ih]
    | false =>
      rw [hword] at hkind
      simp [hword, hkind, hcs]

/-! ### Cuts -/

namespace Bytes

theorem front_block (d : Bytes) :
    front (0x2F :: 0x2A :: d) = match splitComment d with
      | some (inside, after) => .blank (0x2F :: 0x2A :: inside) after
      | none => .fault .unterminatedComment :=
  rfl

theorem front_line (d : Bytes) :
    front (0x2F :: 0x2F :: d) = .blank (0x2F :: 0x2F :: (splitLine d).1) (splitLine d).2 :=
  rfl

theorem front_quote (d : Bytes) :
    front (0x22 :: d) = match splitQuoted false d with
      | some (value, inside, after) => .lexeme (.quoted value) (0x22 :: inside) after
      | none => .fault .unterminatedQuote :=
  rfl

/-- What opens neither a comment nor a quoted string is told by one byte. -/
theorem front_other {c : UInt8} {d : Bytes} (hblock : ¬ (c = 0x2F ∧ d.head? = some 0x2A))
    (hline : ¬ (c = 0x2F ∧ d.head? = some 0x2F)) (hquote : c ≠ 0x22) :
    front (c :: d) =
      if isSpace c then .blank [c] d
      else
        match Mark.ofByte? c with
        | some m => .lexeme (.mark m) [c] d
        | none =>
          if isWord c then
            .lexeme (.word (c :: d.takeWhile isWord)) (c :: d.takeWhile isWord)
              (d.dropWhile isWord)
          else .fault (.unexpected c) := by
  rw [front, if_neg hblock, if_neg hline, if_neg hquote]

end Bytes

/-- What opens neither a comment nor a quoted string in a text does not do so in its bytes. -/
theorem front_encode_other {t : Text} (hblock : ∀ rest, p = .char '/' → t ≠ .char '*' :: rest)
    (hline : ∀ rest, p = .char '/' → t ≠ .char '/' :: rest) (hquote : p ≠ .char '"')
    (hcs : p.encode = c :: cs) :
    Bytes.front (Text.encode (p :: t)) =
      if p.isSpace then .blank [c] (cs ++ t.encode)
      else
        match Mark.ofPoint? p with
        | some m => .lexeme (.mark m) [c] (cs ++ t.encode)
        | none =>
          if p.isWord then
            .lexeme (.word (c :: (cs ++ t.encode).takeWhile Bytes.isWord))
              (c :: (cs ++ t.encode).takeWhile Bytes.isWord)
              ((cs ++ t.encode).dropWhile Bytes.isWord)
          else .fault (.unexpected c) := by
  obtain ⟨c', cs', hcs', -, hc⟩ := p.exists_encode_eq_cons
  obtain ⟨rfl, rfl⟩ := List.cons.inj (hcs.symm.trans hcs')
  have hslash {a : UInt8} (ha : a < 0x80) (hnot : ∀ rest, p = .char '/' → t ≠ .ofByte a :: rest) :
      ¬ (c = 0x2F ∧ (cs ++ t.encode).head? = some a) := by
    rintro ⟨hfirst, hsecond⟩
    obtain rfl := (hc 0x2F (by decide)).1 hfirst
    rw [Point.encode_ofByte] at hcs
    obtain ⟨-, rfl⟩ := List.cons.inj hcs
    obtain ⟨rest, rfl⟩ := List.head?_eq_some_iff.1 ((Text.head?_encode ha).1 hsecond)
    exact hnot rest rfl rfl
  rw [Text.encode_cons, hcs, List.cons_append,
    Bytes.front_other (hslash (by decide) hblock) (hslash (by decide) hline)
      fun h => hquote ((hc 0x22 (by decide)).1 h),
    isSpace_of_encode hcs, isWord_of_encode hcs, ofByte?_of_encode hcs]

/-- **A cut of a text is a cut of its bytes.** -/
theorem front_encode (t : Text) : Bytes.front t.encode = (front t).encode := by
  fun_cases front t with
  | case1 => rfl
  | case2 rest inside after hsplit =>
    have hencode := splitComment_encode rest
    rw [hsplit] at hencode
    exact (Bytes.front_block (Text.encode rest)).trans (by rw [hencode]; rfl)
  | case3 rest hsplit =>
    have hencode := splitComment_encode rest
    rw [hsplit] at hencode
    exact (Bytes.front_block (Text.encode rest)).trans (by rw [hencode]; rfl)
  | case4 rest =>
    exact (Bytes.front_line (Text.encode rest)).trans (by rw [splitLine_encode]; rfl)
  | case5 rest value inside after hsplit =>
    have hencode := splitQuoted_encode rest
    rw [hsplit] at hencode
    exact (Bytes.front_quote (Text.encode rest)).trans (by rw [hencode]; rfl)
  | case6 rest hsplit =>
    have hencode := splitQuoted_encode rest
    rw [hsplit] at hencode
    exact (Bytes.front_quote (Text.encode rest)).trans (by rw [hencode]; rfl)
  | case7 p rest hblock hline hquote hspace =>
    obtain ⟨c, hc⟩ := exists_encode_eq_singleton (Point.isAscii_of_isSpace hspace)
    rw [front_encode_other hblock hline hquote hc, if_pos hspace]
    simp [Front.encode, hc]
  | case8 p rest hblock hline hquote hspace m hm =>
    obtain ⟨c, hc⟩ := exists_encode_eq_singleton (Mark.isAscii_of_ofPoint? hm)
    rw [front_encode_other hblock hline hquote hc, if_neg hspace, hm]
    simp [Front.encode, Token.encode, hc]
  | case9 p rest hblock hline hquote hspace hm hword =>
    obtain ⟨c, hc⟩ := exists_encode_eq_singleton (Point.isAscii_of_isWord hword)
    rw [front_encode_other hblock hline hquote hc, if_neg hspace, hm]
    simp [Front.encode, Token.encode, hc, hword, takeWhile_encode]
  | case10 p rest hblock hline hquote hspace hm hword =>
    obtain ⟨c, cs, hcs, -⟩ := p.exists_encode_eq_cons
    rw [front_encode_other hblock hline hquote hcs, if_neg hspace, hm]
    simp [Front.encode, LexFault.encode, hcs, hword]

/-- A backslash before a byte that spells no character: the string is that byte. -/
example : Bytes.front [0x22, 0x5C, 0xC3, 0x22, 0x3B] =
    .lexeme (.quoted [0xC3]) [0x22, 0x5C, 0xC3, 0x22] [0x3B] := by
  decide

/-! ### All cuts -/

namespace Bytes

/-- A cut takes at least one byte. Every byte string is that of a text, of which this is known. -/
theorem length_rest_lt_of_front {d taken rest : Bytes}
    (h : (front d).split? = some (taken, rest)) : rest.length < d.length := by
  rw [← Text.encode_decode d, front_encode] at h
  have hcut {taken' rest' : Text} (hsplit : (PropertyList.front (Text.decode d)).split? =
      some (taken', rest')) (hrest : rest'.encode = rest) : rest.length < d.length := by
    obtain ⟨hne, happend⟩ := taken_append_rest_of_front hsplit
    have hpos : 0 < taken'.encode.length :=
      List.length_pos_iff.2 fun hnil => hne (Text.encode_eq_nil_iff.1 hnil)
    rw [← Text.encode_decode d, ← happend, Text.encode_append, List.length_append, hrest]
    exact Nat.lt_add_of_pos_left hpos
  cases hfront : PropertyList.front (Text.decode d) with
  | blank taken' rest' =>
    rw [hfront] at h hcut
    exact hcut rfl (Prod.mk.inj (Option.some.inj h)).2
  | lexeme token taken' rest' =>
    rw [hfront] at h hcut
    exact hcut rfl (Prod.mk.inj (Option.some.inj h)).2
  | fault f => rw [hfront] at h; cases h
  | ending => rw [hfront] at h; cases h

end Bytes

/-- The tokens of a byte string and the fault at which cutting stops, each with its line. -/
structure ByteScan where
  tokens : List (ByteToken × Nat)
  error : Option (ByteFault × Nat)
  deriving DecidableEq, Repr

namespace Bytes

/-- The tokens of the byte string that starts in the line `line`. -/
def scanFrom (line : Nat) (d : Bytes) : ByteScan :=
  match _h : front d with
  | .ending => ⟨[(.ending, line)], none⟩
  | .fault f => ⟨[], some (f, line)⟩
  | .blank taken rest => scanFrom (line + taken.count 0x0A) rest
  | .lexeme token taken rest =>
    let later := scanFrom (line + taken.count 0x0A) rest
    ⟨(token, line) :: later.tokens, later.error⟩
  termination_by d.length
  decreasing_by all_goals exact length_rest_lt_of_front (by rw [‹front d = _›]; rfl)

/-- The tokens of a document, by the rules for bytes. -/
def scan (d : Bytes) : ByteScan :=
  scanFrom 1 d

variable {d taken rest : Bytes}

theorem scanFrom_of_ending (h : front d = .ending) (line : Nat) :
    scanFrom line d = ⟨[(.ending, line)], none⟩ := by
  rw [scanFrom]
  split <;> simp_all

theorem scanFrom_of_fault {f : ByteFault} (h : front d = .fault f) (line : Nat) :
    scanFrom line d = ⟨[], some (f, line)⟩ := by
  rw [scanFrom]
  split <;> simp_all

theorem scanFrom_of_blank (h : front d = .blank taken rest) (line : Nat) :
    scanFrom line d = scanFrom (line + taken.count 0x0A) rest := by
  rw [scanFrom]
  split <;> simp_all

theorem scanFrom_of_lexeme {token : ByteToken} (h : front d = .lexeme token taken rest)
    (line : Nat) :
    scanFrom line d =
      ⟨(token, line) :: (scanFrom (line + taken.count 0x0A) rest).tokens,
        (scanFrom (line + taken.count 0x0A) rest).error⟩ := by
  rw [scanFrom]
  split <;> simp_all

end Bytes

/-- The tokens of a text as those of its bytes. Lines are kept. Columns count points and are left
out. -/
def Scan.encode (s : Scan) : ByteScan where
  tokens := s.tokens.map fun t => (t.token.encode, t.position.line)
  error := s.error.map fun e => (e.fault.encode, e.position.line)

/-- The line feeds of a text are those of its bytes. -/
theorem line_advance (pos : Position) (t : Text) :
    (pos.advance t).line = pos.line + t.encode.count 0x0A := by
  induction t generalizing pos with
  | nil => rfl
  | cons p t ih =>
    obtain ⟨c, cs, hcs, hhigh, hc⟩ := p.exists_encode_eq_cons
    have hnone : cs.count 0x0A = 0 :=
      List.count_eq_zero.2 fun h => absurd (hhigh _ h) (by decide)
    have hfirst : (pos.step p).line = pos.line + [c].count 0x0A := by
      by_cases hp : p = .char '\n'
      · rw [Position.step, if_pos hp, (hc 0x0A (by decide)).2 hp]
        rfl
      · rw [Position.step, if_neg hp, List.count_singleton,
          if_neg fun h => hp ((hc 0x0A (by decide)).1 (by simpa using h))]
        rfl
    calc ((pos.step p).advance t).line
        = pos.line + [c].count 0x0A + (Text.encode t).count 0x0A := by rw [ih, hfirst]
      _ = pos.line + ([c] ++ (cs ++ Text.encode t)).count 0x0A := by
        rw [List.count_append, List.count_append, hnone, Nat.zero_add, Nat.add_assoc]
      _ = pos.line + (Text.encode (p :: t)).count 0x0A := by rw [Text.encode_cons, hcs]; rfl

/-- Scanning a text, cut by cut, is scanning its bytes. -/
theorem scanFrom_encode (pos : Position) (t : Text) :
    (scanFrom pos t).encode = Bytes.scanFrom pos.line t.encode := by
  fun_induction scanFrom pos t with
  | case1 pos t h =>
    rw [Bytes.scanFrom_of_ending (by rw [front_encode, h]; rfl)]
    rfl
  | case2 pos t f h =>
    rw [Bytes.scanFrom_of_fault (by rw [front_encode, h]; rfl)]
    rfl
  | case3 pos t taken rest h ih =>
    rw [Bytes.scanFrom_of_blank (by rw [front_encode, h]; rfl), ← line_advance, ih]
  | case4 pos t token taken rest h later ih =>
    rw [Bytes.scanFrom_of_lexeme (by rw [front_encode, h]; rfl), ← line_advance, ← ih]
    rfl

/-- **The tokens of a document are those of its bytes.** Scanning the text that a byte string
spells, be it well-formed or not, gives the tokens that the rules for bytes find in it, with the
same strings and on the same lines. It fails where they fail, behind the same tokens and for the
same reason. -/
theorem scan_decode (d : Bytes) : (Text.decode d).scan.encode = Bytes.scan d := by
  rw [Text.scan, scanFrom_encode, Text.encode_decode]
  rfl

end PropertyList
