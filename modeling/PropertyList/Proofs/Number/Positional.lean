import Mathlib
import PropertyList.Text.Basic

/-!
# Positional notation

A list of digits of a base, the most significant first, has a value, whatever it is written with. A
digit above nine is written as a letter of either case. Of the lists with one value there is one
without leading zeros, and one of each length that has room for the value.

## Main definitions

* `Positional.value`, the value of a list of digits
* `Positional.SpellsDigit`, `Positional.digitChars`, `Positional.spell`, how digits are written
* `Positional.NoLeadingZero`
* `Positional.ReadsDigits`, the functions that recognise digits

## Main results

* `Positional.toDigits_value`, `Positional.exists_noLeadingZero`
* `Positional.leftpad_toDigits_value`
* `Positional.ReadsDigits.foldl_eq_value`
-/

namespace PropertyList.Positional

variable {b : Nat}

/-- The value of a list of digits of base `b`, the most significant first. -/
def value (digits : List (Fin b)) : Nat :=
  Nat.ofDigits b (digits.reverse.map Fin.val)

/-- Whether a point is written for a digit. A letter may be of either case. -/
def SpellsDigit (p : Point) (d : Fin b) : Prop :=
  p = .char d.val.digitChar ∨ p = .char d.val.digitChar.toUpper

/-- The characters of a list of digits, with lower-case letters. -/
def digitChars (digits : List (Fin b)) : List Char :=
  digits.map fun d : Fin b => d.val.digitChar

/-- The text of a list of digits, with lower-case letters. -/
def spell (digits : List (Fin b)) : Text :=
  (digitChars digits).map .char

/-- Whether no digit follows on a zero in front. -/
def NoLeadingZero : List (Fin b) → Prop
  | [] | [_] => True
  | d :: _ :: _ => d.val ≠ 0

theorem digitChars_append (digits digits' : List (Fin b)) :
    digitChars (digits ++ digits') = digitChars digits ++ digitChars digits' :=
  List.map_append

theorem length_digitChars (digits : List (Fin b)) : (digitChars digits).length = digits.length :=
  List.length_map _

/-! ### Values -/

theorem value_singleton (d : Fin b) : value [d] = d :=
  Nat.ofDigits_singleton

theorem value_cons (d : Fin b) (digits : List (Fin b)) :
    value (d :: digits) = b ^ digits.length * d + value digits := by
  rw [value, List.reverse_cons, List.map_append, Nat.ofDigits_append, List.length_map,
    List.length_reverse, List.map_singleton, Nat.ofDigits_singleton, Nat.add_comm]
  rfl

theorem value_append_singleton (digits : List (Fin b)) (d : Fin b) :
    value (digits ++ [d]) = b * value digits + d := by
  rw [value, List.reverse_append, List.reverse_singleton, List.singleton_append, List.map_cons,
    Nat.ofDigits_cons, Nat.add_comm]
  rfl

theorem value_lt (hb : 1 < b) (digits : List (Fin b)) : value digits < b ^ digits.length := by
  have hlt := Nat.ofDigits_lt_base_pow_length (l := digits.reverse.map Fin.val) hb
    fun d hd => by
      obtain ⟨e, -, rfl⟩ := List.mem_map.1 hd
      exact e.isLt
  rwa [List.length_map, List.length_reverse] at hlt

/-- As many digits with the same value are the same digits. -/
theorem eq_of_value_eq (hb : 1 < b) {digits digits' : List (Fin b)}
    (hlength : digits.length = digits'.length) (hvalue : value digits = value digits') :
    digits = digits' := by
  have hlt (l : List (Fin b)) : ∀ d ∈ l.reverse.map Fin.val, d < b := by
    intro d hd
    obtain ⟨e, -, rfl⟩ := List.mem_map.1 hd
    exact e.isLt
  have hreverse := Nat.ofDigits_inj_of_len_eq hb (by simpa using hlength) (hlt digits)
    (hlt digits') hvalue
  exact List.reverse_injective (List.map_injective_iff.2 Fin.val_injective hreverse)

theorem value_zeros_append (hb : 0 < b) (k : Nat) (digits : List (Fin b)) :
    value (List.replicate k ⟨0, hb⟩ ++ digits) = value digits := by
  induction k with
  | zero => rfl
  | succ k ih =>
    rw [List.replicate_succ, List.cons_append, value_cons, ih, Nat.mul_zero, Nat.zero_add]

/-- A number has as many digits as there is room for. -/
theorem exists_length_eq (hb : 0 < b) {k n : Nat} (hn : n < b ^ k) :
    ∃ digits : List (Fin b), digits.length = k ∧ value digits = n := by
  induction k generalizing n with
  | zero => exact ⟨[], rfl, (Nat.lt_one_iff.1 hn).symm⟩
  | succ k ih =>
    rw [Nat.pow_succ] at hn
    obtain ⟨digits, hlength, hvalue⟩ := ih (Nat.div_lt_of_lt_mul (Nat.mul_comm _ b ▸ hn))
    refine ⟨digits ++ [⟨n % b, Nat.mod_lt n hb⟩], by simp [hlength], ?_⟩
    rw [value_append_singleton, hvalue]
    exact Nat.div_add_mod n b

/-! ### Numerals without leading zeros -/

/-- Digits after one that is not zero are the numeral of their value. -/
private theorem toDigits_value_cons (hb : 1 < b) {d : Fin b} (hd : d.val ≠ 0)
    (digits : List (Fin b)) :
    0 < value (d :: digits) ∧
      Nat.toDigits b (value (d :: digits)) = digitChars (d :: digits) := by
  induction digits using List.reverseRecOn with
  | nil =>
    rw [value_singleton, Nat.toDigits_of_lt_base d.isLt]
    exact ⟨Nat.pos_of_ne_zero hd, rfl⟩
  | append_singleton digits e ih =>
    obtain ⟨hpos, hdigits⟩ := ih
    rw [← List.cons_append, value_append_singleton, digitChars_append, ← hdigits,
      ← Nat.toDigits_append_toDigits hb hpos e.isLt, Nat.toDigits_of_lt_base e.isLt]
    exact ⟨Nat.lt_of_lt_of_le (Nat.mul_pos (by omega) hpos) (Nat.le_add_right _ _), rfl⟩

theorem toDigits_value (hb : 1 < b) {digits : List (Fin b)} (hne : digits ≠ [])
    (hzero : NoLeadingZero digits) :
    Nat.toDigits b (value digits) = digitChars digits := by
  obtain ⟨d, digits, rfl⟩ := List.exists_cons_of_ne_nil hne
  cases digits with
  | nil =>
    rw [value_singleton, Nat.toDigits_of_lt_base d.isLt]
    rfl
  | cons e digits => exact (toDigits_value_cons hb hzero (e :: digits)).2

/-- Every number has digits without leading zeros. -/
theorem exists_noLeadingZero (hb : 1 < b) (n : Nat) :
    ∃ digits : List (Fin b), digits ≠ [] ∧ NoLeadingZero digits ∧ value digits = n := by
  induction n using Nat.base_induction b hb with
  | single d hd => exact ⟨[⟨d, hd⟩], List.cons_ne_nil _ _, trivial, value_singleton _⟩
  | digit n d hd hn ih =>
    obtain ⟨digits, hne, hzero, rfl⟩ := ih
    refine ⟨digits ++ [⟨d, hd⟩], by simp, ?_, value_append_singleton digits ⟨d, hd⟩⟩
    cases digits with
    | nil => exact absurd rfl hne
    | cons e digits =>
      cases digits with
      | nil => exact Nat.ne_of_gt (value_singleton e ▸ hn)
      | cons f digits => exact hzero

/-- Digits are the numeral of their value, filled up with zeros. -/
theorem leftpad_toDigits_value (hb : 1 < b) {digits : List (Fin b)} (hne : digits ≠ []) :
    (Nat.toDigits b (value digits)).leftpad digits.length '0' = digitChars digits := by
  obtain ⟨plain, hplain, hzero, hvalue⟩ := exists_noLeadingZero hb (value digits)
  have htoDigits := toDigits_value hb hplain hzero
  rw [hvalue] at htoDigits
  have hle : plain.length ≤ digits.length := by
    have hlength :=
      (Nat.length_toDigits_le_iff hb (List.length_pos_iff.2 hne)).2 (value_lt hb digits)
    rwa [htoDigits, length_digitChars] at hlength
  let zeros : List (Fin b) := List.replicate (digits.length - plain.length) ⟨0, by omega⟩
  have hsame : zeros ++ plain = digits := by
    refine eq_of_value_eq hb ?_ ?_
    · rw [List.length_append, List.length_replicate]
      omega
    · rw [value_zeros_append (by omega), hvalue]
  have hzeros : digitChars zeros = List.replicate (digits.length - plain.length) '0' :=
    List.map_replicate
  rw [htoDigits, List.leftpad, length_digitChars, ← hzeros, ← digitChars_append, hsame]

/-! ### Reading -/

/-- Whether a function recognises the digits of base `b` and gives their values. -/
def ReadsDigits (b : Nat) (digit? : Point → Option Nat) : Prop :=
  ∀ p n, digit? p = some n ↔ ∃ d : Fin b, d.val = n ∧ SpellsDigit p d

variable {digit? : Point → Option Nat} {t : Text} {digits : List (Fin b)}

namespace ReadsDigits

theorem eq_some (hdigit : ReadsDigits b digit?) {p : Point} {d : Fin b} (hp : SpellsDigit p d) :
    digit? p = some d.val :=
  (hdigit p d).2 ⟨d, rfl, hp⟩

/-- Going along the digits gives their value. -/
theorem foldl_eq_value (hdigit : ReadsDigits b digit?) (ht : List.Forall₂ SpellsDigit t digits)
    (start : Nat) :
    t.foldl (fun n p => b * n + (digit? p).getD 0) start =
      b ^ digits.length * start + value digits := by
  induction ht generalizing start with
  | nil => simp [value]
  | @cons p d t digits hp _ ih =>
    rw [List.foldl_cons, ih, hdigit.eq_some hp, Option.getD_some, value_cons, List.length_cons]
    ring

theorem exists_digits_iff (hdigit : ReadsDigits b digit?) :
    (∀ p ∈ t, (digit? p).isSome = true) ↔ ∃ digits : List (Fin b),
      List.Forall₂ SpellsDigit t digits := by
  constructor
  · intro ht
    induction t with
    | nil => exact ⟨[], .nil⟩
    | cons p t ih =>
      obtain ⟨hp, ht⟩ := List.forall_mem_cons.1 ht
      obtain ⟨n, hn⟩ := Option.isSome_iff_exists.1 hp
      obtain ⟨d, -, hd⟩ := (hdigit p n).1 hn
      obtain ⟨digits, hdigits⟩ := ih ht
      exact ⟨d :: digits, .cons hd hdigits⟩
  · rintro ⟨digits, hdigits⟩
    induction hdigits with
    | nil => exact List.forall_mem_nil _
    | cons hp _ ih => exact List.forall_mem_cons.2 ⟨by rw [hdigit.eq_some hp]; rfl, ih⟩

end ReadsDigits

/-- If a run of `count` characters from the code `first` on is written for the digits from `offset`
on, then each of its characters is written for a digit. -/
theorem exists_spellsDigit {b : Nat} (first offset count : Nat) {c : Char}
    (hrun : ∀ k : Fin count, Char.ofNat (first + k) = (offset + k.val).digitChar ∨
      Char.ofNat (first + k) = (offset + k.val).digitChar.toUpper)
    (hb : offset + count ≤ b) (hlow : first ≤ c.toNat) (hhigh : c.toNat < first + count) :
    ∃ d : Fin b, d.val = c.toNat - first + offset ∧ SpellsDigit (.char c) d := by
  obtain ⟨k, hk⟩ := Nat.exists_eq_add_of_le hlow
  have hchar : Char.ofNat (first + k) = c := hk ▸ Char.ofNat_toNat c
  have hspells : c = (offset + k).digitChar ∨ c = (offset + k).digitChar.toUpper :=
    hchar ▸ hrun ⟨k, by omega⟩
  refine ⟨⟨offset + k, by omega⟩, by dsimp only; omega, ?_⟩
  exact hspells.imp (congrArg Point.char) (congrArg Point.char)

theorem exists_spellsDigit_of_isDigit {b : Nat} (hb : 10 ≤ b) {c : Char}
    (hc : c.isDigit = true) :
    ∃ d : Fin b, d.val = c.toNat - '0'.toNat ∧ SpellsDigit (.char c) d := by
  have hbounds : 48 ≤ c.toNat ∧ c.toNat ≤ 57 := by simpa [Char.isDigit_iff_toNat] using hc
  exact exists_spellsDigit 48 0 10 (by decide) (by omega) hbounds.1 (by omega)

theorem forall₂_spell (digits : List (Fin b)) : List.Forall₂ SpellsDigit (spell digits) digits :=
  List.forall₂_map_left_iff.2 <| List.forall₂_map_left_iff.2 <|
    List.forall₂_same.2 fun _ _ => Or.inl rfl

end PropertyList.Positional
