import Mathlib
import PropertyList.Proofs.Number.Shortest
import PropertyList.Scalar.Reading

/-!
# Reading numerals back

A number is laid out with a point or an exponent among its digits. Reading the numeral takes the
point and the exponent out again, so that a number is read back from its numeral.

## Main results

* `Numeral.readDecimal?_whole`, `Numeral.readDecimal?_point`
* `DecimalLayout.exists_readDecimal?_format`
* `Double.exists_readRealBy?_toText`
-/

namespace PropertyList

open Numeral

/-! ### Reading decimal numerals -/

namespace Numeral

/-- Whether a text is no continuation of a run of digits with a point in it. -/
def EndsDigits (t : Text) : Prop :=
  ∀ p ∈ t.head?, isDigit p = false ∧ p ≠ .char '.'

theorem endsDigits_nil : EndsDigits [] :=
  fun p hp => by cases hp

theorem takeWhile_isDigit {cs : List Char} (hcs : ∀ c ∈ cs, c.isDigit = true) {t : Text}
    (ht : ∀ p ∈ t.head?, isDigit p = false) :
    (cs.map Point.char ++ t).takeWhile isDigit = cs.map Point.char ∧
      (cs.map Point.char ++ t).dropWhile isDigit = t := by
  have hall : ∀ p ∈ cs.map Point.char, isDigit p = true :=
    List.forall_mem_map.2 fun c hc => (isDigit_char c).trans (hcs c hc)
  rw [List.takeWhile_append_of_pos hall, List.dropWhile_append_of_pos hall]
  cases t with
  | nil => exact ⟨List.append_nil _, rfl⟩
  | cons p t =>
    have hp := ht p rfl
    rw [List.takeWhile_cons_of_neg (by rw [hp]; exact Bool.false_ne_true),
      List.dropWhile_cons_of_neg (by rw [hp]; exact Bool.false_ne_true)]
    exact ⟨List.append_nil _, rfl⟩

/-- Digits without a point are read as a whole number. -/
theorem readDecimal?_whole {whole : List Char} (hne : whole ≠ [])
    (hwhole : ∀ c ∈ whole, c.isDigit = true) {rest : Text} (hrest : EndsDigits rest)
    (negative : Bool) :
    readDecimal? negative (whole.map Point.char ++ rest) =
      (readExponent? rest).map fun e =>
        .decimal negative (readNatural (whole.map Point.char)) e := by
  obtain ⟨htake, hdrop⟩ := takeWhile_isDigit hwhole fun p hp => (hrest p hp).1
  have hempty : (whole.map Point.char).isEmpty = false := by
    rw [List.isEmpty_map, List.isEmpty_eq_false_iff]
    exact hne
  simp only [readDecimal?, htake, hdrop, hempty, Bool.false_and, Bool.false_eq_true, if_false]
  split
  · exact absurd rfl (hrest _ rfl).2
  · simp only [List.append_nil, List.length_nil, Nat.cast_zero, Int.sub_zero]

/-- Digits with a point among them are read with as many decimal places as there are digits behind
the point. -/
theorem readDecimal?_point (whole fraction : List Char) (hne : whole ≠ [])
    (hwhole : ∀ c ∈ whole, c.isDigit = true) (hfraction : ∀ c ∈ fraction, c.isDigit = true)
    {rest : Text} (hrest : EndsDigits rest) (negative : Bool) :
    readDecimal? negative (whole.map Point.char ++ .char '.' :: (fraction.map Point.char ++ rest)) =
      (readExponent? rest).map fun e =>
        .decimal negative (readNatural ((whole ++ fraction).map Point.char))
          (e - fraction.length) := by
  obtain ⟨htake, hdrop⟩ := takeWhile_isDigit hwhole
    (t := .char '.' :: (fraction.map Point.char ++ rest))
    fun p hp => by
      cases hp
      rfl
  obtain ⟨htake', hdrop'⟩ := takeWhile_isDigit hfraction fun p hp => (hrest p hp).1
  have hempty : (whole.map Point.char).isEmpty = false := by
    rw [List.isEmpty_map, List.isEmpty_eq_false_iff]
    exact hne
  simp only [readDecimal?, htake, hdrop, htake', hdrop', hempty, Bool.false_and,
    Bool.false_eq_true, if_false, List.map_append, List.length_map]

end Numeral

/-! ### Layouts -/

theorem isDigit_of_mem_zeros {c : Char} {n : Int} (hc : c ∈ zeros n) : c.isDigit = true := by
  rw [List.eq_of_mem_replicate hc]
  rfl

/-- A number laid out without an exponent is read back. -/
theorem exists_readDecimal?_positional (negative : Bool) (c : Nat) (e : Int) :
    ∃ c' e', readDecimal? negative ((positional c e).map Point.char) =
        some (.decimal negative c' e') ∧
      nearestDouble negative c' e' = nearestDouble negative c e := by
  have hdigits : ∀ d ∈ Nat.toDigits 10 c, d.isDigit = true := fun d hd => isDigit_of_mem_toDigits hd
  have hpos : 0 < (Nat.toDigits 10 c).length := Nat.length_toDigits_pos
  simp only [positional]
  split_ifs with he hwhole
  · -- The point and a zero stand behind all digits.
    have hall : ∀ d ∈ Nat.toDigits 10 c ++ zeros e, d.isDigit = true := fun d hd =>
      (List.mem_append.1 hd).elim (hdigits d) isDigit_of_mem_zeros
    have hread := readDecimal?_point (Nat.toDigits 10 c ++ zeros e) ['0']
      (List.append_ne_nil_of_left_ne_nil Nat.toDigits_ne_nil _) hall
      (List.forall_mem_singleton.2 rfl) endsDigits_nil negative
    refine ⟨c * 10 ^ (e.toNat + 1), -1, ?_, ?_⟩
    · rw [List.append_assoc, zeros, ← List.replicate_succ', readNatural_append_zeros] at hread
      rw [List.map_append]
      exact hread
    · rw [nearestDouble_mul_pow]
      congr 1
      omega
  · -- The point stands among the digits.
    have hread := readDecimal?_point
      ((Nat.toDigits 10 c).take ((Nat.toDigits 10 c).length + e).toNat)
      ((Nat.toDigits 10 c).drop ((Nat.toDigits 10 c).length + e).toNat)
      (fun hnil => by
        have := congrArg List.length hnil
        rw [List.length_take, List.length_nil] at this
        omega)
      (fun d hd => hdigits d (List.mem_of_mem_take hd))
      (fun d hd => hdigits d (List.mem_of_mem_drop hd)) endsDigits_nil negative
    refine ⟨c, e, ?_, rfl⟩
    rw [List.take_append_drop, readNatural_toDigits, List.length_drop, List.append_nil] at hread
    rw [List.map_append, List.map_cons, hread, readExponent?, Option.map_some]
    congr 2
    omega
  · -- The digits stand behind the point, and zeros before them.
    have hall : ∀ d ∈ zeros (-((Nat.toDigits 10 c).length + e)) ++ Nat.toDigits 10 c,
        d.isDigit = true := fun d hd =>
      (List.mem_append.1 hd).elim isDigit_of_mem_zeros (hdigits d)
    have hread := readDecimal?_point ['0']
      (zeros (-((Nat.toDigits 10 c).length + e)) ++ Nat.toDigits 10 c)
      (List.cons_ne_nil _ _) (List.forall_mem_singleton.2 rfl) hall endsDigits_nil negative
    refine ⟨c, e, ?_, rfl⟩
    rw [← List.append_assoc, zeros, List.singleton_append, ← List.replicate_succ,
      readNatural_zeros_append, List.length_append, List.length_replicate, List.append_nil] at hread
    refine hread.trans ?_
    rw [readExponent?, Option.map_some]
    congr 2
    omega

/-- An exponent has a sign and digits. -/
theorem readExponent?_signed (e : Int) (width : Nat) :
    readExponent? (('e' :: (if e < 0 then '-' else '+') ::
      (Nat.toDigits 10 e.natAbs).leftpad width '0').map Point.char) = some e := by
  have hdigits : isDigits (((Nat.toDigits 10 e.natAbs).leftpad width '0').map Point.char) = true :=
    isDigits_map_char (List.append_ne_nil_of_right_ne_nil _ Nat.toDigits_ne_nil) fun c hc =>
      (List.mem_append.1 hc).elim (fun hc => by rw [List.eq_of_mem_replicate hc]; rfl)
        isDigit_of_mem_toDigits
  have hvalue : readNatural (((Nat.toDigits 10 e.natAbs).leftpad width '0').map Point.char) =
      e.natAbs :=
    readNatural_zeros_append _ _
  rw [List.map_cons, List.map_cons, readExponent?, if_pos (Or.inl rfl)]
  by_cases he : e < 0
  · rw [if_pos he, splitInteger?, splitSign]
    simp only [hdigits, if_true, Option.map_some, integerOf, hvalue]
    congr 1
    omega
  · rw [if_neg he, splitInteger?, splitSign]
    simp only [hdigits, if_true, Option.map_some, integerOf, hvalue, Bool.false_eq_true, if_false]
    congr 1
    omega

/-- A number laid out with an exponent is read back. -/
theorem readDecimal?_scientific (negative : Bool) (c : Nat) (e : Int) (width : Nat) :
    readDecimal? negative ((scientific c e width).map Point.char) =
      some (.decimal negative c e) := by
  obtain ⟨d, fraction, hdigits⟩ :=
    List.exists_cons_of_ne_nil (Nat.toDigits_ne_nil (n := c) (b := 10))
  have hall : ∀ d ∈ Nat.toDigits 10 c, d.isDigit = true := fun d hd => isDigit_of_mem_toDigits hd
  have hread := readNatural_toDigits c
  rw [hdigits] at hall hread
  obtain ⟨hd, hfraction⟩ := List.forall_mem_cons.1 hall
  simp only [scientific, hdigits, List.take_succ_cons, List.take_zero, List.drop_succ_cons,
    List.drop_zero, List.length_cons, Nat.cast_add, Nat.cast_one]
  generalize hexponent : (fraction.length : Int) + 1 + e - 1 = exponent
  have hends : EndsDigits (('e' :: (if exponent < 0 then '-' else '+') ::
      (Nat.toDigits 10 exponent.natAbs).leftpad width '0').map Point.char) := by
    intro p hp
    cases hp
    exact ⟨rfl, by decide⟩
  cases fraction with
  | nil =>
    have hwhole := readDecimal?_whole (List.cons_ne_nil d []) hall hends negative
    rw [readExponent?_signed, hread, Option.map_some] at hwhole
    rw [List.isEmpty_nil, if_pos rfl, List.append_nil, List.map_append]
    rw [hwhole]
    congr 2
    rw [List.length_nil] at hexponent
    omega
  | cons d' fraction =>
    have hpoint := readDecimal?_point [d] (d' :: fraction) (List.cons_ne_nil d [])
      (List.forall_mem_singleton.2 hd) hfraction hends negative
    rw [readExponent?_signed, List.singleton_append, hread, Option.map_some] at hpoint
    rw [List.isEmpty_cons, if_neg Bool.false_ne_true, List.append_assoc, List.map_append]
    rw [← List.map_append, ← List.map_cons, ← List.cons_append] at hpoint
    rw [hpoint]
    -- The places behind the point lower the exponent, which was raised by as many.
    congr 2
    omega

/-- **A number that is laid out is read back.** -/
theorem DecimalLayout.exists_readDecimal?_format (layout : DecimalLayout) (negative : Bool)
    (c : Nat) (e : Int) :
    ∃ c' e', readDecimal? negative ((layout.format c e).map Point.char) =
        some (.decimal negative c' e') ∧
      nearestDouble negative c' e' = nearestDouble negative c e := by
  simp only [format]
  split_ifs
  · obtain ⟨c', e', hread, hvalue⟩ :=
      exists_readDecimal?_positional negative (dropZeros c e).1 (dropZeros c e).2
    exact ⟨c', e', hread, hvalue.trans (nearestDouble_dropZeros negative c e)⟩
  · exact ⟨_, _, readDecimal?_scientific negative _ _ _, nearestDouble_dropZeros negative c e⟩

private theorem exists_take_toDigits_append (n : Nat) {k : Nat} (hk : 0 < k) (t : List Char) :
    ∃ d u, (Nat.toDigits 10 n).take k ++ t = d :: u ∧ d.isDigit = true := by
  obtain ⟨k, rfl⟩ : ∃ m, k = m + 1 := ⟨k - 1, by omega⟩
  obtain ⟨d, u, hdigits⟩ := List.exists_cons_of_ne_nil (Nat.toDigits_ne_nil (n := n) (b := 10))
  refine ⟨d, u.take k ++ t, by rw [hdigits]; rfl, isDigit_of_mem_toDigits (n := n) ?_⟩
  rw [hdigits]
  exact List.mem_cons_self

/-- The numeral of a number starts with a digit. -/
theorem DecimalLayout.exists_format_eq_cons (layout : DecimalLayout) (c : Nat) (e : Int) :
    ∃ d t, layout.format c e = d :: t ∧ d.isDigit = true := by
  simp only [format]
  generalize dropZeros c e = number
  obtain ⟨c, e⟩ := number
  split_ifs
  · simp only [positional]
    split_ifs with _ hwhole
    · have hall := exists_take_toDigits_append c (k := (Nat.toDigits 10 c).length)
        Nat.length_toDigits_pos (zeros e ++ ['.', '0'])
      rwa [List.take_length, ← List.append_assoc] at hall
    · exact exists_take_toDigits_append c (by omega) _
    · exact ⟨'0', _, rfl, rfl⟩
  · rw [scientific, List.append_assoc]
    exact exists_take_toDigits_append c Nat.one_pos _

private theorem isDigit_or_of_mem_scientific {n : Nat} {e : Int} {width : Nat} {c : Char}
    (hc : c ∈ scientific n e width) : c.isDigit = true ∨ c ∈ ['.', 'e', '+', '-'] := by
  have hdigits {m : Nat} (hc : c ∈ Nat.toDigits 10 m) : c.isDigit = true :=
    isDigit_of_mem_toDigits hc
  simp only [scientific, List.mem_append, List.mem_cons] at hc
  rcases hc with (hc | hc) | rfl | rfl | hc
  · exact .inl (hdigits (List.mem_of_mem_take hc))
  · split_ifs at hc
    · cases hc
    · rcases List.mem_cons.1 hc with rfl | hc
      · exact .inr (by decide)
      · exact .inl (hdigits (List.mem_of_mem_drop hc))
  · exact .inr (by decide)
  · refine .inr ?_
    split_ifs <;> decide
  · rcases List.mem_append.1 hc with hc | hc
    · rw [List.eq_of_mem_replicate hc]
      exact .inl rfl
    · exact .inl (hdigits hc)

private theorem isDigit_or_of_mem_positional {n : Nat} {e : Int} {c : Char}
    (hc : c ∈ positional n e) : c.isDigit = true ∨ c ∈ ['.', 'e', '+', '-'] := by
  have hdigits (hc : c ∈ Nat.toDigits 10 n) : c.isDigit = true := isDigit_of_mem_toDigits hc
  simp only [positional] at hc
  split_ifs at hc <;> simp only [List.mem_append, List.mem_cons, List.not_mem_nil, or_false] at hc
  · rcases hc with (hc | hc) | rfl | rfl
    · exact .inl (hdigits hc)
    · exact .inl (isDigit_of_mem_zeros hc)
    · exact .inr (by decide)
    · exact .inl rfl
  · rcases hc with hc | rfl | hc
    · exact .inl (hdigits (List.mem_of_mem_take hc))
    · exact .inr (by decide)
    · exact .inl (hdigits (List.mem_of_mem_drop hc))
  · rcases hc with (rfl | rfl | hc) | hc
    · exact .inl rfl
    · exact .inr (by decide)
    · exact .inl (isDigit_of_mem_zeros hc)
    · exact .inl (hdigits hc)

/-- Numerals are made of digits, a point, an exponent and signs. -/
theorem DecimalLayout.isDigit_or_of_mem_format {layout : DecimalLayout} {n : Nat} {e : Int}
    {c : Char} (hc : c ∈ layout.format n e) : c.isDigit = true ∨ c ∈ ['.', 'e', '+', '-'] := by
  simp only [format] at hc
  split_ifs at hc
  · exact isDigit_or_of_mem_positional hc
  · exact isDigit_or_of_mem_scientific hc

/-! ### Reading -/

theorem Numeral.lowerLetter_of_isDigit {p : Point} (hp : isDigit p = true) : lowerLetter p = p := by
  cases p with
  | stray low => rfl
  | char c =>
    rw [isDigit_char, Char.isDigit, Bool.and_eq_true, decide_eq_true_iff, decide_eq_true_iff] at hp
    have hupper : ¬ c.isUpper = true := by
      rw [Char.isUpper, decide_eq_true_iff, not_and_or]
      exact .inl fun h => absurd (UInt32.le_trans h hp.2) (by decide)
    rw [lowerLetter, Char.toLower_eq_of_not_isUpper hupper]

/-- A numeral that starts with a digit is no name. -/
theorem Numeral.readRealBy?_of_isDigit {lower : Point → Point}
    (hlower : ∀ p, isDigit p = true → lower p = p) {p : Point} (hp : isDigit p = true) (t : Text)
    (negative : Bool) :
    readRealBy? lower (if negative then .char '-' :: p :: t else p :: t) =
      readDecimal? negative (p :: t) := by
  have hsign : splitSign (if negative then .char '-' :: p :: t else p :: t) =
      (negative, p :: t) := by
    cases negative with
    | true => rfl
    | false => exact splitSign_of_isDigit hp t
  have hname (name : Text) (hhead : name.head?.any isDigit = false) :
      (p :: t).map lower ≠ name := by
    rintro rfl
    rw [List.map_cons, hlower p hp, List.head?_cons, Option.any_some, hp] at hhead
    cases hhead
  simp only [readRealBy?, hsign]
  rw [if_neg (not_or.2 ⟨hname "inf" rfl, hname "infinity" rfl⟩), if_neg (hname "nan" rfl)]

namespace Double

/-- A finite number other than zero is read back from its numeral, in whatever way letters are
compared. -/
theorem exists_readRealBy?_toText {lower : Point → Point}
    (hlower : ∀ p, isDigit p = true → lower p = p) {rank : Fin (infinityRank + 1)}
    (hpos : 0 < rank.val) (hfinite : rank.val < infinityRank) (negative : Bool) :
    ∃ spelled, readRealBy? lower (signed negative rank).toText = some spelled ∧
      spelled.toDouble = .signed negative rank := by
  obtain ⟨d, t, hcons, hd⟩ :=
    layout.exists_format_eq_cons (shortestDecimal rank).1 (shortestDecimal rank).2
  obtain ⟨c, e, hread, hvalue⟩ :=
    layout.exists_readDecimal?_format negative (shortestDecimal rank).1 (shortestDecimal rank).2
  refine ⟨.decimal negative c e, ?_, ?_⟩
  · rw [hcons, List.map_cons] at hread
    rw [← hread, ← readRealBy?_of_isDigit hlower ((isDigit_char d).trans hd)]
    simp only [toText, if_neg (Nat.ne_of_lt hfinite), if_neg (Nat.ne_of_gt hpos), hcons,
      List.map_cons]
  · have hnearest := nearestDouble_shortestDecimal hpos hfinite
    exact hvalue.trans (nearestDouble_negative hnearest negative)

/-- Numerals have no points in them but digits, signs, a point, and the letters of an exponent and
of names. -/
theorem isDigit_or_of_mem_toText {x : Double} {p : Point} (hp : p ∈ x.toText) :
    isDigit p = true ∨ p ∈ (".e+-infa" : Text) := by
  cases x with
  | nan =>
    refine .inr ?_
    revert p
    decide
  | signed negative rank =>
    have hsign {t : Text} (ht : ∀ p ∈ t, isDigit p = true ∨ p ∈ (".e+-infa" : Text))
        (hp : p ∈ if negative then .char '-' :: t else t) :
        isDigit p = true ∨ p ∈ (".e+-infa" : Text) := by
      split_ifs at hp
      · rcases List.mem_cons.1 hp with rfl | hp
        · exact .inr (by decide)
        · exact ht p hp
      · exact ht p hp
    refine hsign ?_ hp
    split_ifs
    · decide
    · decide
    · refine List.forall_mem_map.2 fun c hc => ?_
      rcases DecimalLayout.isDigit_or_of_mem_format hc with hc | hc
      · exact .inl ((isDigit_char c).trans hc)
      · refine .inr ?_
        simp only [List.mem_cons, List.not_mem_nil, or_false] at hc
        rcases hc with rfl | rfl | rfl | rfl <;> decide

end Double

end PropertyList
