import Mathlib.Data.List.Basic
import Mathlib.Tactic.Ring
import PropertyList.Number.Numeral

/-!
# Runs of digits

The numeral of a number consists of digits, and reading it gives the number back. A zero at its end
multiplies the number by ten and makes the numeral longer by one.

## Main results

* `Numeral.readNatural_toDigits`
* `Numeral.splitInteger?_ofInt`, `Numeral.integerOf_natAbs`
* `Numeral.length_toDigits_mul_pow`
-/

namespace PropertyList.Numeral

theorem isDigit_char (c : Char) : isDigit (.char c) = c.isDigit := by
  cases h : c.isDigit <;> simp [isDigit, digit?, h]

/-- A run of digits spells the number that its characters spell. -/
theorem readDigits_map_char {cs : List Char} (hcs : ∀ c ∈ cs, c.isDigit = true) (start : Nat) :
    readDigits start (cs.map .char) = Nat.ofDigitChars 10 cs start := by
  induction cs generalizing start with
  | nil => rfl
  | cons c cs ih =>
    obtain ⟨hc, hcs⟩ := List.forall_mem_cons.1 hcs
    have hdigit : (digit? (.char c)).getD 0 = c.toNat - '0'.toNat := by
      rw [digit?, if_pos hc]
      rfl
    rw [Nat.ofDigitChars_cons, ← ih hcs, ← hdigit]
    rfl

theorem isDigit_of_mem_toDigits {c : Char} {n : Nat} (hc : c ∈ Nat.toDigits 10 n) :
    c.isDigit = true :=
  Nat.isDigit_of_mem_toDigits (by decide) (by decide) hc

/-- Zeros in front of a numeral are read past. -/
theorem readNatural_zeros_append (k n : Nat) :
    readNatural ((List.replicate k '0' ++ Nat.toDigits 10 n).map .char) = n := by
  rw [readNatural, readDigits_map_char, Nat.ofDigitChars_append, Nat.ofDigitChars_replicate_zero,
    Nat.mul_zero, Nat.ofDigitChars_ten_toDigits]
  intro c hc
  rcases List.mem_append.1 hc with hc | hc
  · rw [List.eq_of_mem_replicate hc]
    rfl
  · exact isDigit_of_mem_toDigits hc

/-- Zeros behind a numeral multiply its number by powers of ten. -/
theorem readNatural_append_zeros (n k : Nat) :
    readNatural ((Nat.toDigits 10 n ++ List.replicate k '0').map .char) = n * 10 ^ k := by
  rw [readNatural, readDigits_map_char, Nat.ofDigitChars_append, Nat.ofDigitChars_ten_toDigits,
    Nat.ofDigitChars_replicate_zero, Nat.mul_comm]
  intro c hc
  rcases List.mem_append.1 hc with hc | hc
  · exact isDigit_of_mem_toDigits hc
  · rw [List.eq_of_mem_replicate hc]
    rfl

theorem readNatural_toDigits (n : Nat) : readNatural ((Nat.toDigits 10 n).map .char) = n :=
  readNatural_zeros_append 0 n

theorem isDigits_map_char {cs : List Char} (hne : cs ≠ []) (hcs : ∀ c ∈ cs, c.isDigit = true) :
    isDigits (cs.map .char) = true := by
  have hempty : (cs.map Point.char).isEmpty = false := by
    rw [List.isEmpty_map, List.isEmpty_eq_false_iff]
    exact hne
  rw [isDigits, hempty, Bool.not_false, Bool.true_and, List.all_map, List.all_eq_true]
  exact fun c hc => (isDigit_char c).trans (hcs c hc)

theorem isDigits_ofNat (n : Nat) : isDigits (Text.ofNat n) = true :=
  isDigits_map_char Nat.toDigits_ne_nil fun _ hc => isDigit_of_mem_toDigits hc

theorem length_ofNat_le {n k : Nat} (hk : 0 < k) (hn : n < 10 ^ k) :
    (Text.ofNat n).length ≤ k := by
  rw [Text.ofNat, List.length_map]
  exact (Nat.length_toDigits_le_iff (by decide) hk).2 hn

/-! ### Signs -/

/-- No sign is taken off a text that starts with a digit. -/
theorem splitSign_of_isDigit {p : Point} (hp : isDigit p = true) (t : Text) :
    splitSign (p :: t) = (false, p :: t) := by
  unfold splitSign
  split
  · rename_i heq
    rw [(List.cons.inj heq).1] at hp
    exact absurd hp (by decide)
  · rename_i heq
    rw [(List.cons.inj heq).1] at hp
    exact absurd hp (by decide)
  · rfl

theorem exists_ofNat_eq_cons (n : Nat) :
    ∃ p t, Text.ofNat n = p :: t ∧ isDigit p = true := by
  obtain ⟨c, cs, hcs⟩ := List.exists_cons_of_ne_nil (Nat.toDigits_ne_nil (n := n) (b := 10))
  refine ⟨.char c, cs.map .char, by rw [Text.ofNat, hcs, List.map_cons], ?_⟩
  rw [isDigit_char]
  exact isDigit_of_mem_toDigits (hcs ▸ List.mem_cons_self)

theorem splitInteger?_ofNat (n : Nat) :
    splitInteger? (Text.ofNat n) = some (false, Text.ofNat n) := by
  obtain ⟨p, t, heq, hp⟩ := exists_ofNat_eq_cons n
  have hdigits := isDigits_ofNat n
  rw [heq] at hdigits ⊢
  rw [splitInteger?, splitSign_of_isDigit hp]
  exact if_pos hdigits

/-- The numeral of an integer has a minus sign if the integer is negative. -/
theorem splitInteger?_ofInt (n : Int) :
    splitInteger? (Text.ofInt n) = some (decide (n < 0), Text.ofNat n.natAbs) := by
  cases n with
  | ofNat n =>
    rw [Text.ofInt, splitInteger?_ofNat, decide_eq_false (by simp)]
    rfl
  | negSucc n =>
    rw [decide_eq_true (Int.negSucc_lt_zero n)]
    exact if_pos (isDigits_ofNat (n + 1))

theorem integerOf_natAbs (n : Int) : integerOf (decide (n < 0)) (Text.ofNat n.natAbs) = n := by
  rw [integerOf, Text.ofNat, readNatural_toDigits]
  by_cases hn : n < 0
  · rw [decide_eq_true hn, if_pos rfl]
    omega
  · rw [decide_eq_false hn, if_neg Bool.false_ne_true]
    omega

/-! ### Lengths -/

theorem length_toDigits_mul_ten {n : Nat} (hn : 0 < n) :
    (Nat.toDigits 10 (n * 10)).length = (Nat.toDigits 10 n).length + 1 := by
  have happend := Nat.toDigits_append_toDigits (b := 10) (d := 0) (by decide) hn (by decide)
  rw [Nat.mul_comm n 10, ← Nat.add_zero (10 * n), ← happend, List.length_append]
  rfl

/-- Each power of ten makes the numeral longer by one. -/
theorem length_toDigits_mul_pow {n : Nat} (hn : 0 < n) (k : Nat) :
    (Nat.toDigits 10 (n * 10 ^ k)).length = (Nat.toDigits 10 n).length + k := by
  induction k with
  | zero => rw [Nat.pow_zero, Nat.mul_one, Nat.add_zero]
  | succ k ih =>
    rw [Nat.pow_succ, ← Nat.mul_assoc,
      length_toDigits_mul_ten (Nat.mul_pos hn (Nat.pow_pos (by decide))), ih, Nat.add_assoc]

end PropertyList.Numeral
