import Mathlib
import PropertyList.Proofs.Number.Layout
import PropertyList.Proofs.Number.Positional
import PropertyList.Scalar.Reading

/-!
# Reading scalars back

Integers, real numbers and colours are read back from their canonical texts, which have no blanks
around them and are never too long to be converted, and what is read is in the range of its type.

## Main definitions

* `Scalar.readHex`, the number that hexadecimal digits spell

## Main results

* `Scalar.strip_append`, `Scalar.exists_eq_append_strip` : what is taken off at the two ends.
* `Scalar.readUint64_ofInt`, `Scalar.readInt64_ofInt`, `Scalar.range_of_readInteger`
* `Scalar.readDouble_toText`
* `Scalar.readsDigits_hexDigit?`, `Scalar.ofHex_value`
* `Scalar.readArgb32_ofHex`, `Scalar.range_of_readArgb32`
-/

namespace PropertyList

open Numeral Positional

namespace Scalar

/-! ### Blanks -/

theorem dropWhile_isBlank_append {t : Text} (hne : t ≠ []) (ht : ∀ p ∈ t, isBlank p = false)
    (u : Text) : (t ++ u).dropWhile isBlank = t ++ u := by
  obtain ⟨p, t, rfl⟩ := List.exists_cons_of_ne_nil hne
  exact List.dropWhile_cons_of_neg (by rw [ht p List.mem_cons_self]; exact Bool.false_ne_true)

/-- The blanks around a text without blanks are taken off. -/
theorem strip_append {before after t : Text} (hbefore : ∀ p ∈ before, isBlank p = true)
    (hafter : ∀ p ∈ after, isBlank p = true) (hne : t ≠ []) (ht : ∀ p ∈ t, isBlank p = false) :
    strip (before ++ t ++ after) = t := by
  have hreverse := dropWhile_isBlank_append (t := t.reverse) (by simpa using hne)
    (fun p hp => ht p (List.mem_reverse.1 hp)) []
  rw [List.append_nil] at hreverse
  rw [strip, List.append_assoc, List.dropWhile_append_of_pos hbefore,
    dropWhile_isBlank_append hne ht, List.reverse_append,
    List.dropWhile_append_of_pos (fun p hp => hafter p (List.mem_reverse.1 hp)), hreverse,
    List.reverse_reverse]

theorem strip_eq_self {t : Text} (ht : ∀ p ∈ t, isBlank p = false) : strip t = t := by
  by_cases hne : t = []
  · rw [hne]
    rfl
  · have hstrip := strip_append (List.forall_mem_nil _) (List.forall_mem_nil _) hne ht
    rwa [List.nil_append, List.append_nil] at hstrip

/-- What is taken off at the two ends of a text is blank. -/
theorem exists_eq_append_strip (t : Text) : ∃ before after,
    (∀ p ∈ before, isBlank p = true) ∧ (∀ p ∈ after, isBlank p = true) ∧
      t = before ++ strip t ++ after := by
  let rest := (t.dropWhile isBlank).reverse
  refine ⟨t.takeWhile isBlank, (rest.takeWhile isBlank).reverse,
    fun p hp => List.mem_takeWhile_imp hp,
    fun p hp => List.mem_takeWhile_imp (List.mem_reverse.1 hp), ?_⟩
  have hrest : strip t ++ (rest.takeWhile isBlank).reverse = t.dropWhile isBlank := by
    rw [strip, ← List.reverse_append, List.takeWhile_append_dropWhile, List.reverse_reverse]
  rw [List.append_assoc, hrest, List.takeWhile_append_dropWhile]

theorem isBlank_of_isDigit {p : Point} (hp : isDigit p = true) : isBlank p = false := by
  by_contra hblank
  have hall : ∀ q ∈ [Point.char ' ', .char '\t', .char '\n', .char '\r', .char '\x0b',
      .char '\x0c'], isDigit q = false := by decide
  rw [Bool.not_eq_false, isBlank, decide_eq_true_iff] at hblank
  rw [hall p hblank] at hp
  cases hp

theorem isDigit_of_mem_ofNat {n : Nat} {p : Point} (hp : p ∈ Text.ofNat n) : isDigit p = true := by
  obtain ⟨c, hc, rfl⟩ := List.mem_map.1 hp
  exact (isDigit_char c).trans (isDigit_of_mem_toDigits hc)

theorem strip_ofInt (n : Int) : strip (.ofInt n) = .ofInt n := by
  refine strip_eq_self fun p hp => ?_
  cases n with
  | ofNat n => exact isBlank_of_isDigit (isDigit_of_mem_ofNat hp)
  | negSucc n =>
    rcases List.mem_cons.1 hp with rfl | hp
    · rfl
    · exact isBlank_of_isDigit (isDigit_of_mem_ofNat hp)

theorem strip_toText (x : Double) : strip x.toText = x.toText := by
  refine strip_eq_self fun p hp => ?_
  rcases Double.isDigit_or_of_mem_toText hp with hp | hp
  · exact isBlank_of_isDigit hp
  · have hall : ∀ q ∈ (".e+-infa" : Text), isBlank q = false := by decide
    exact hall p hp

/-! ### Integers -/

theorem convert_natAbs {n : Int} (hn : n.natAbs < 10 ^ digitLimit) :
    convert (decide (n < 0)) (.ofNat n.natAbs) = .ok n := by
  rw [convert, if_neg (Nat.not_lt.2 (length_ofNat_le (by decide) hn)), integerOf_natAbs]

/-- An integer of a type is read back from its numeral. -/
theorem readInteger_ofInt {type : Text} {low high n : Int}
    {numeral? : Text → Option (Bool × Text)}
    (hnumeral : numeral? (.ofInt n) = some (decide (n < 0), .ofNat n.natAbs))
    (hdigits : n.natAbs < 10 ^ digitLimit) (hn : low ≤ n ∧ n ≤ high) :
    readInteger type low high numeral? (.ofInt n) = .ok n := by
  simp only [readInteger, strip_ofInt, hnumeral, convert_natAbs hdigits, bind, Except.bind,
    if_pos hn]
  rfl

/-- Integers of 64 bits have far fewer digits than are converted. -/
theorem natAbs_lt_of_le {n : Int} (hlow : -2 ^ 64 ≤ n) (hhigh : n ≤ 2 ^ 64) :
    n.natAbs < 10 ^ digitLimit := by
  have hfew : 2 ^ 64 < 10 ^ 20 := by decide
  calc n.natAbs ≤ 2 ^ 64 := by omega
    _ < 10 ^ 20 := hfew
    _ ≤ 10 ^ digitLimit := Nat.pow_le_pow_right (by decide) (by decide)

theorem readUint64_ofInt {n : Int} (hn : 0 ≤ n ∧ n ≤ unsignedMax 64) :
    readUint64 (.ofInt n) = .ok n := by
  have hmax : unsignedMax 64 = 2 ^ 64 - 1 := rfl
  refine readInteger_ofInt ?_ (natAbs_lt_of_le (by omega) (by omega)) hn
  obtain ⟨n, rfl⟩ := Int.eq_ofNat_of_zero_le hn.1
  rw [decide_eq_false (Int.not_lt.2 hn.1)]
  exact if_pos (isDigits_ofNat n)

theorem readInt64_ofInt {n : Int} (hn : int64Min ≤ n ∧ n ≤ int64Max) :
    readInt64 (.ofInt n) = .ok n := by
  have hmin : int64Min = -2 ^ 63 := rfl
  have hmax : int64Max = 2 ^ 63 - 1 := rfl
  exact readInteger_ofInt (splitInteger?_ofInt n) (natAbs_lt_of_le (by omega) (by omega)) hn

/-- An integer that is read is in the range of its type. -/
theorem range_of_readInteger {type : Text} {low high n : Int}
    {numeral? : Text → Option (Bool × Text)} {t : Text}
    (hread : readInteger type low high numeral? t = .ok n) : low ≤ n ∧ n ≤ high := by
  simp only [readInteger] at hread
  split at hread
  · cases hread
  · rename_i negative digits _
    cases hconvert : convert negative digits with
    | error failure =>
      simp only [hconvert, bind, Except.bind, reduceCtorEq] at hread
    | ok m =>
      simp only [hconvert, bind, Except.bind] at hread
      split_ifs at hread with hrange
      cases hread
      exact hrange

/-! ### Real numbers -/

/-- A number is read back from its numeral. -/
theorem readDouble_toText (x : Double) : readDouble x.toText = .ok x := by
  have hfold (p : Point) (hp : isDigit p = true) : foldLetter p = p := by
    have hplain : ¬ (p = .char '\u0130' ∨ p = .char '\u0131') := by
      rintro (rfl | rfl) <;> exact absurd hp (by decide)
    rw [foldLetter, if_neg hplain, lowerLetter_of_isDigit hp]
  cases x with
  | nan => rfl
  | signed negative rank =>
    rcases Nat.eq_zero_or_pos rank.val with hzero | hpos
    · obtain rfl : rank = 0 := Fin.ext hzero
      cases negative <;> rfl
    · rcases Nat.lt_or_eq_of_le (Nat.le_of_lt_succ rank.isLt) with hfinite | hinfinite
      · obtain ⟨_, hname, -⟩ := Double.exists_readRealBy?_toText hfold hpos hfinite negative
        obtain ⟨spelled, hread, hvalue⟩ :=
          Double.exists_readRealBy?_toText (fun _ => lowerLetter_of_isDigit) hpos hfinite negative
        simp only [readDouble, strip_toText, hname, readReal?, hread, hvalue]
      · obtain rfl : rank = ⟨infinityRank, Nat.lt_succ_self _⟩ := Fin.ext hinfinite
        cases negative <;> rfl

/-! ### Colours -/

theorem readsDigits_hexDigit? : ReadsDigits 16 hexDigit? := by
  intro p n
  constructor
  · intro hp
    cases p with
    | stray low => cases hp
    | char c =>
      simp only [hexDigit?] at hp
      split_ifs at hp with hdigit hsmall hcapital <;> cases hp
      · exact exists_spellsDigit_of_isDigit (by decide) hdigit
      · have hlow : 97 ≤ c.toNat := hsmall.1
        have hhigh : c.toNat ≤ 102 := hsmall.2
        exact exists_spellsDigit 97 10 6 (by decide) (by decide) hlow (Nat.lt_succ_of_le hhigh)
      · have hlow : 65 ≤ c.toNat := hcapital.1
        have hhigh : c.toNat ≤ 70 := hcapital.2
        exact exists_spellsDigit 65 10 6 (by decide) (by decide) hlow (Nat.lt_succ_of_le hhigh)
  · rintro ⟨d, rfl, rfl | rfl⟩ <;> revert d <;> decide

/-- The number that hexadecimal digits spell after the digits of `start`. -/
def readHex (start : Nat) (t : Text) : Nat :=
  t.foldl (fun n p => 16 * n + (hexDigit? p).getD 0) start

variable {t : Text} {digits : List (Fin 16)} {n : Int}

theorem readHex_eq_value (ht : List.Forall₂ SpellsDigit t digits) : readHex 0 t = value digits :=
  (readsDigits_hexDigit?.foldl_eq_value ht 0).trans (by rw [Nat.mul_zero, Nat.zero_add])

theorem ofHex_value (hne : digits ≠ []) : .ofHex digits.length (value digits) = spell digits := by
  rw [Text.ofHex, leftpad_toDigits_value (by decide) hne]
  rfl

theorem readArgb32_ofHex (hn : 0 ≤ n ∧ n ≤ unsignedMax 32) :
    readArgb32 (colourTag ++ .ofHex 8 n.toNat) = .ok n := by
  have hmax : unsignedMax 32 = 16 ^ 8 - 1 := rfl
  obtain ⟨digits, hlength, hvalue⟩ :=
    exists_length_eq (b := 16) (k := 8) (n := n.toNat) (by decide) (by omega)
  have hspell : Text.ofHex 8 n.toNat = spell digits := by
    rw [← hlength, ← hvalue]
    exact ofHex_value (by rintro rfl; cases hlength)
  have hspelled := forall₂_spell digits
  have hall := List.all_eq_true.2 (readsDigits_hexDigit?.exists_digits_iff.2 ⟨digits, hspelled⟩)
  have hnumber : (readHex 0 (spell digits) : Int) = n := by
    rw [readHex_eq_value hspelled, hvalue]
    omega
  have htag : colourTag.isPrefixOf (colourTag ++ spell digits) = true :=
    List.isPrefixOf_iff_prefix.2 (List.prefix_append _ _)
  rw [hspell, readArgb32, List.drop_left,
    if_pos ⟨htag, hspelled.length_eq.trans hlength, hall⟩]
  exact congrArg Except.ok hnumber

theorem range_of_readArgb32 (hread : readArgb32 t = .ok n) : 0 ≤ n ∧ n ≤ unsignedMax 32 := by
  simp only [readArgb32] at hread
  split_ifs at hread with ht
  cases hread
  obtain ⟨-, hlength, hall⟩ := ht
  obtain ⟨digits, hdigits⟩ := readsDigits_hexDigit?.exists_digits_iff.1 (List.all_eq_true.1 hall)
  have hlt := value_lt (by decide) digits
  have hmax : unsignedMax 32 = 16 ^ 8 - 1 := rfl
  rw [← readHex_eq_value hdigits, ← hdigits.length_eq, hlength, readHex] at hlt
  omega

end Scalar

end PropertyList
