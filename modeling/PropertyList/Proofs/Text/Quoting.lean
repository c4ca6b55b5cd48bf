import Mathlib
import PropertyList.Proofs.Text.Encoding
import PropertyList.Text.Quote

/-!
# Quoted strings

A string in its written form starts and ends with ASCII points and has one before every mark that
it contains. It is therefore recoded on its own, whatever follows, and its recoding is the written
form of the recoded string (`recode_quote`).

## Main results

* `Text.isBareWord_eq_of_encode_eq` : whether a string is a bare word shows in its bytes.
* `Text.sealed_quote`, `Text.recode_quote`
* `splitQuoted_escape` : a quoted string is cut off behind its closing mark.
* `front_quote_append` : a written string is one token.
-/

namespace PropertyList

/-! ### Points of words and marks -/

theorem Point.isAscii_of_isWord {p : Point} (hp : p.isWord) : p.isAscii := by
  cases p with
  | char c =>
    simp only [isWord, Char.isAlphanum, Char.isAlpha, Char.isUpper, Char.isLower, Char.isDigit,
      Bool.or_eq_true, Bool.and_eq_true, decide_eq_true_eq, beq_iff_eq] at hp
    refine decide_eq_true ?_
    rcases hp with ((((⟨-, h⟩ | ⟨-, h⟩) | ⟨-, h⟩) | rfl) | rfl) | rfl
    · exact Nat.lt_of_le_of_lt (UInt32.le_iff_toNat_le.1 h) (by decide)
    · exact Nat.lt_of_le_of_lt (UInt32.le_iff_toNat_le.1 h) (by decide)
    · exact Nat.lt_of_le_of_lt (UInt32.le_iff_toNat_le.1 h) (by decide)
    · decide
    · decide
    · decide
  | stray low => exact absurd hp (by simp [isWord])

namespace Text

/-- The points of a text may all stand in a word if its bytes may. -/
private theorem all_isWord_iff {t : Text} :
    (∀ p ∈ t, p.isWord) ↔ ∀ b ∈ t.encode, b < 0x80 ∧ (Point.ofByte b).isWord := by
  constructor
  · intro h b hb
    obtain ⟨p, hp, hbp⟩ := List.mem_flatMap.1 hb
    obtain ⟨b', hb', rfl⟩ := Point.exists_eq_ofByte (Point.isAscii_of_isWord (h p hp))
    obtain rfl : b = b' := by simpa using hbp
    exact ⟨hb', h _ hp⟩
  · intro h p hp
    obtain ⟨b, hb⟩ := List.exists_mem_of_ne_nil _ p.encode_ne_nil
    obtain ⟨hlt, hword⟩ := h b (List.mem_flatMap.2 ⟨p, hp, hb⟩)
    rcases p.eq_ofByte_or_le with ⟨b', -, rfl⟩ | hle
    · rw [Point.encode_ofByte, List.mem_singleton] at hb
      rwa [← hb]
    · exact absurd (hle b hb) (UInt8.not_le.2 hlt)

theorem isBareWord_iff {t : Text} : t.isBareWord ↔ t ≠ [] ∧ ∀ p ∈ t, p.isWord := by
  simp [isBareWord]

theorem isBareWord_eq_of_encode_eq {s t : Text} (h : s.encode = t.encode) :
    s.isBareWord = t.isBareWord := by
  rw [Bool.eq_iff_iff, isBareWord_iff, isBareWord_iff, ne_eq, ne_eq, ← encode_eq_nil_iff,
    ← encode_eq_nil_iff, all_isWord_iff, all_isWord_iff, h]

theorem recode_of_isBareWord {t : Text} (ht : t.isBareWord) : t.recode = t :=
  recode_of_isAscii fun p hp => Point.isAscii_of_isWord ((isBareWord_iff.1 ht).2 p hp)

end Text

/-! ### Escapes -/

/-- The two points that are written with a backslash between quotation marks. -/
private def IsEscaped (p : Point) : Prop :=
  p = .char '"' ∨ p = .char '\\'

private theorem isAscii_of_isEscaped {p : Point} (hp : IsEscaped p) : p.isAscii := by
  rcases hp with rfl | rfl <;> decide

private theorem escape_of_isEscaped {p : Point} (hp : IsEscaped p) :
    p.escape = [.char '\\', p] := by
  unfold Point.escape
  exact if_pos hp

private theorem escape_of_not_isEscaped {p : Point} (hp : ¬ IsEscaped p) : p.escape = [p] := by
  unfold Point.escape
  exact if_neg hp

private theorem flatMap_escape_of_not_isEscaped {t : Text} (ht : ∀ p ∈ t, ¬ IsEscaped p) :
    t.flatMap Point.escape = t := by
  induction t with
  | nil => rfl
  | cons p t ih =>
    rw [List.flatMap_cons, escape_of_not_isEscaped (ht p List.mem_cons_self),
      ih fun q hq => ht q (List.mem_cons_of_mem _ hq)]
    rfl

namespace Text

/-- A text in front of a string: the induction moves points of the string into it as long as they
are written as they stand, for only an escape separates what is recoded on its two sides. -/
private theorem recode_append_flatMap_escape (t : Text) :
    ∀ u : Text, (∀ p ∈ u, ¬ IsEscaped p) →
      recode (u ++ t.flatMap Point.escape) = (recode (u ++ t)).flatMap Point.escape := by
  induction t with
  | nil =>
    intro u hu
    rw [List.flatMap_nil, List.append_nil, flatMap_escape_of_not_isEscaped]
    exact fun p hp he => hu p ((mem_recode_iff (isAscii_of_isEscaped he)).1 hp) he
  | cons p t ih =>
    intro u hu
    rw [List.flatMap_cons]
    by_cases hp : IsEscaped p
    · have hu' : (recode u).flatMap Point.escape = recode u :=
        flatMap_escape_of_not_isEscaped fun q hq he =>
          hu q ((mem_recode_iff (isAscii_of_isEscaped he)).1 hq) he
      have htail := ih [] (fun q hq => absurd hq List.not_mem_nil)
      rw [List.nil_append, List.nil_append] at htail
      rw [escape_of_isEscaped hp, List.cons_append, List.singleton_append,
        recode_append_cons (by decide), recode_cons (isAscii_of_isEscaped hp),
        recode_append_cons (isAscii_of_isEscaped hp), List.flatMap_append, List.flatMap_cons,
        escape_of_isEscaped hp, hu', htail]
      rfl
    · have hu' : ∀ q ∈ u ++ [p], ¬ IsEscaped q := by
        intro q hq
        rcases List.mem_append.1 hq with hq | hq
        · exact hu q hq
        · rwa [List.mem_singleton.1 hq]
      have htail := ih (u ++ [p]) hu'
      rw [List.append_assoc, List.append_assoc] at htail
      rw [escape_of_not_isEscaped hp]
      exact htail

theorem recode_flatMap_escape (t : Text) :
    recode (t.flatMap Point.escape) = (recode t).flatMap Point.escape :=
  recode_append_flatMap_escape t [] fun _ hp => absurd hp List.not_mem_nil

/-! ### Written strings -/

theorem quote_of_isBareWord {t : Text} (ht : t.isBareWord) : t.quote = t := by
  rw [quote, if_pos ht]

theorem quote_of_not_isBareWord {t : Text} (ht : ¬ t.isBareWord) :
    t.quote = .char '"' :: t.flatMap Point.escape ++ [.char '"'] := by
  rw [quote, if_neg ht]

theorem quote_ne_nil (t : Text) : t.quote ≠ [] := by
  by_cases ht : t.isBareWord
  · rw [quote_of_isBareWord ht]
    rintro rfl
    cases ht
  · rw [quote_of_not_isBareWord ht]
    exact List.cons_ne_nil _ _

theorem sealed_quote (t : Text) : Sealed t.quote := by
  by_cases ht : t.isBareWord
  · rw [quote_of_isBareWord ht]
    exact sealed_of_isAscii fun p hp => Point.isAscii_of_isWord ((isBareWord_iff.1 ht).2 p hp)
  · rw [quote_of_not_isBareWord ht]
    exact sealed_append_singleton _ (by decide)

/-- The recoding of a written string is the written form of the recoded string. -/
theorem recode_quote (t : Text) : t.quote.recode = t.recode.quote := by
  have hsame : t.recode.isBareWord = t.isBareWord := isBareWord_eq_of_encode_eq (encode_recode t)
  by_cases ht : t.isBareWord
  · rw [recode_of_isBareWord ht, quote_of_isBareWord ht, recode_of_isBareWord ht]
  · rw [quote_of_not_isBareWord ht, quote_of_not_isBareWord (hsame ▸ ht), List.cons_append,
      recode_cons (by decide), recode_append_cons (by decide), recode_flatMap_escape, recode_nil]
    rfl

end Text

/-! ### Cutting off a written string -/

/-- A quoted string is cut off behind the mark that closes it, with the escapes undone. -/
theorem splitQuoted_escape (t rest : Text) :
    splitQuoted (t.flatMap Point.escape ++ .char '"' :: rest) =
      some (t, t.flatMap Point.escape ++ [.char '"'], rest) := by
  induction t with
  | nil => rw [List.flatMap_nil, List.nil_append, splitQuoted]; rfl
  | cons p t ih =>
    rw [List.flatMap_cons]
    by_cases hp : IsEscaped p
    · rw [escape_of_isEscaped hp, List.append_assoc, List.cons_append, List.singleton_append,
        splitQuoted, ih]
      rfl
    · have hquote : p ≠ .char '"' := fun h => hp (Or.inl h)
      have hslash : p ≠ .char '\\' := fun h => hp (Or.inr h)
      rw [escape_of_not_isEscaped hp, List.append_assoc, List.singleton_append, splitQuoted,
        if_neg hslash, ih]
      · rfl
      · exact fun h => hquote h
      · exact fun _ _ h _ => hslash h

/-- The token that a written string is read as. -/
def Token.ofText (t : Text) : Token :=
  if t.isBareWord then .word t else .quoted t

/-- Whether a word that stands in front of the text ends there. -/
def Text.EndsWord (t : Text) : Prop :=
  ∀ p ∈ t.head?, ¬ p.isWord

/-- A run of points in front of something that does not belong to it is cut off whole. -/
theorem span_run {f : Point → Bool} {t rest : Text} (ht : ∀ p ∈ t, f p)
    (hr : ∀ p ∈ rest.head?, ¬ f p) :
    (t ++ rest).takeWhile f = t ∧ (t ++ rest).dropWhile f = rest := by
  have hrest : rest.takeWhile f = [] ∧ rest.dropWhile f = rest := by
    cases rest with
    | nil => exact ⟨rfl, rfl⟩
    | cons q rest =>
      have hq : ¬ f q := hr q rfl
      exact ⟨List.takeWhile_cons_of_neg hq, List.dropWhile_cons_of_neg hq⟩
  rw [List.takeWhile_append_of_pos ht, List.dropWhile_append_of_pos ht, hrest.1, hrest.2]
  exact ⟨List.append_nil t, rfl⟩

theorem front_of_isWord {p : Point} (hp : p.isWord) (t : Text) :
    front (p :: t) =
      .lexeme (.word (p :: t.takeWhile Point.isWord)) (p :: t.takeWhile Point.isWord)
        (t.dropWhile Point.isWord) := by
  have hspace : p.isSpace = false := by
    refine decide_eq_false fun h => ?_
    simp only [List.mem_cons, List.not_mem_nil, or_false] at h
    rcases h with rfl | rfl | rfl | rfl <;> exact absurd hp (by decide)
  have hmark : Mark.ofPoint? p = none := by
    refine List.find?_eq_none.2 fun m _ h => ?_
    obtain rfl := of_decide_eq_true h
    cases m <;> exact absurd hp (by decide)
  have hslash : p ≠ .char '/' := fun h => absurd (h ▸ hp) (by decide)
  have hquote : p ≠ .char '"' := fun h => absurd (h ▸ hp) (by decide)
  rw [front, hspace, hmark, hp]
  · rfl
  · exact fun _ h _ => hslash h
  · exact fun _ h _ => hslash h
  · exact fun h => hquote h

/-- **A written string is one token.** The cut in front of a written string yields the string,
with the escapes undone, and ends where the written string ends. Only a bare word has to end there
by what follows. -/
theorem front_quote_append {t rest : Text} (hr : t.isBareWord → rest.EndsWord) :
    front (t.quote ++ rest) = .lexeme (.ofText t) t.quote rest := by
  by_cases ht : t.isBareWord
  · obtain ⟨hne, hword⟩ := Text.isBareWord_iff.1 ht
    obtain ⟨p, t', rfl⟩ := List.exists_cons_of_ne_nil hne
    obtain ⟨htake, hdrop⟩ :=
      span_run (fun q hq => hword q (List.mem_cons_of_mem p hq)) (hr ht)
    rw [Text.quote_of_isBareWord ht, List.cons_append, front_of_isWord (hword p List.mem_cons_self),
      htake, hdrop, Token.ofText, if_pos ht]
  · rw [Text.quote_of_not_isBareWord ht, List.append_assoc, List.cons_append, List.singleton_append,
      front, splitQuoted_escape, Token.ofText, if_neg ht]
    rfl

end PropertyList
