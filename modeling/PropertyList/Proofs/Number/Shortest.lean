import Mathlib.Tactic.Positivity
import PropertyList.Number.Shortest
import PropertyList.Proofs.Number.Digits
import PropertyList.Proofs.Number.Rounding

/-!
# The shortest digits

The digits that a number is written with are found among those that read back as the number, and if
none of the few digits tried does, all digits of the number are taken, which read back because the
number is a fraction of a power of ten. So the digits always read back.

## Main results

* `nearestDouble_mul_pow`, `nearestDouble_dropZeros`: zeros at the end of a coefficient belong to
  the exponent as well
* `nearestDouble_shortestDecimal`
-/

namespace PropertyList

open Numeral

/-! ### Decimal fractions -/

theorem nearestDouble_zero (negative : Bool) (exponent : Int) :
    nearestDouble negative 0 exponent = .zero negative := by
  simp [nearestDouble]

/-- The two forms of a decimal fraction are one. -/
theorem nearestDouble_eq {c : Nat} (hc : 0 < c) (negative : Bool) (e : Int) :
    nearestDouble negative c e =
      if 310 ≤ (Nat.toDigits 10 c).length + e then .infinity negative
      else if (Nat.toDigits 10 c).length + e ≤ -330 then .zero negative
      else .ofFraction negative (c * 10 ^ e.toNat) (10 ^ (-e).toNat) := by
  simp only [nearestDouble, if_neg (Nat.ne_of_gt hc), Nat.pow_eq]
  split_ifs with _ _ he
  · rfl
  · rfl
  · rw [Int.toNat_of_nonpos (Int.neg_nonpos_of_nonneg he), Nat.pow_zero]
  · rw [Int.toNat_of_nonpos (Int.le_of_not_le he), Nat.pow_zero, Nat.mul_one]

theorem Double.ofFraction_congr {num den num' den' : Nat} (hden : 0 < den) (hden' : 0 < den')
    (heq : num * den' = num' * den) (negative : Bool) :
    Double.ofFraction negative num den = .ofFraction negative num' den' := by
  simp only [Double.ofFraction, nearestRank_congr hden hden' heq]

/-- Zeros at the end of the coefficient can be taken into the exponent. -/
theorem nearestDouble_mul_pow (negative : Bool) (c k : Nat) (e : Int) :
    nearestDouble negative (c * 10 ^ k) e = nearestDouble negative c (e + k) := by
  rcases Nat.eq_zero_or_pos c with rfl | hc
  · rw [Nat.zero_mul, nearestDouble_zero, nearestDouble_zero]
  · have hpos : 0 < c * 10 ^ k := Nat.mul_pos hc (Nat.pow_pos (by decide))
    have hexponents : k + e.toNat + (-(e + k)).toNat = (e + k).toNat + (-e).toNat := by omega
    have hfraction : Double.ofFraction negative (c * 10 ^ k * 10 ^ e.toNat) (10 ^ (-e).toNat) =
        .ofFraction negative (c * 10 ^ (e + k).toNat) (10 ^ (-(e + k)).toNat) := by
      refine Double.ofFraction_congr (by positivity) (by positivity) ?_ negative
      rw [Nat.mul_assoc, Nat.mul_assoc, ← Nat.pow_add, ← Nat.pow_add, Nat.mul_assoc, ← Nat.pow_add,
        ← Nat.add_assoc, hexponents]
    rw [nearestDouble_eq hpos, nearestDouble_eq hc, length_toDigits_mul_pow hc, hfraction,
      Nat.cast_add, Int.add_assoc, Int.add_comm k e]

/-- Zeros at the end of a coefficient do not count. -/
theorem nearestDouble_dropZeros (negative : Bool) (c : Nat) (e : Int) :
    nearestDouble negative (dropZeros c e).1 (dropZeros c e).2 = nearestDouble negative c e := by
  fun_induction dropZeros c e with
  | case1 c e h ih =>
    have hc : c / 10 * 10 ^ 1 = c := by omega
    rw [ih]
    have := nearestDouble_mul_pow negative (c / 10) 1 e
    rw [hc] at this
    exact this.symm
  | case2 c e h => rfl

/-- The sign of a number is that of its numeral. -/
theorem nearestDouble_negative {rank : Fin (infinityRank + 1)} {c : Nat} {e : Int}
    (h : nearestDouble false c e = .signed false rank) (negative : Bool) :
    nearestDouble negative c e = .signed negative rank := by
  simp only [nearestDouble, Double.zero, Double.infinity, Double.ofFraction] at h ⊢
  split_ifs at h ⊢ <;> cases h <;> rfl

/-! ### Digits that read back -/

/-- A neighbour is taken only if it reads back. -/
theorem readsAs_of_neighbour? {rank : Fin (infinityRank + 1)} {place : Int} {c : Nat}
    (hc : neighbour? rank place = some c) : readsAs rank place c = true := by
  simp only [neighbour?] at hc
  generalize inUnits (rankValue rank) place = units at hc
  obtain ⟨num, den⟩ := units
  cases hlower : readsAs rank place (num / den) <;>
    cases hupper : readsAs rank place (num / den + 1) <;> simp only [hlower, hupper] at hc
  · cases hc
  · cases hc
    exact hupper
  · cases hc
    exact hlower
  · split_ifs at hc
    · cases hc
      exact hlower
    · cases hc
      exact hupper
    · cases hc
      -- The even one of the two neighbours is one of them.
      rcases Nat.mod_two_eq_zero_or_one (num / den) with hmod | hmod
      · rwa [hmod]
      · rwa [hmod]

private theorem two_pow_add_mul_five_pow (a k : Nat) : 2 ^ (a + k) * 5 ^ k = 2 ^ a * 10 ^ k := by
  rw [Nat.pow_add, Nat.mul_assoc, ← Nat.mul_pow]

private theorem mul_five_pow_mul_two_pow (n k : Nat) : n * 5 ^ k * 2 ^ k = n * 10 ^ k := by
  rw [Nat.mul_assoc, ← Nat.mul_pow]

/-- All digits of a finite number together read back. -/
theorem nearestDouble_all_digits {rank : Fin (infinityRank + 1)} (hpos : 0 < rank.val)
    (hfinite : rank.val < infinityRank) :
    nearestDouble false (rankValue rank * Nat.pow 5 scaleBits) (-scaleBits) =
      .signed false rank := by
  have hrank : 0 < rankValue rank := rankValue_pos hpos
  have hc : 0 < rankValue rank * 5 ^ scaleBits := Nat.mul_pos hrank (Nat.pow_pos (by decide))
  -- The bounds of the exponent are far apart, so rough estimates of the powers are enough.
  have hleast : 10 ^ 744 ≤ 5 ^ scaleBits := by decide +kernel
  have hgreatest : 2 ^ 1024 ≤ 10 ^ 309 := by decide +kernel
  have hlower : ¬ (Nat.toDigits 10 (rankValue rank * 5 ^ scaleBits)).length ≤ 744 := by
    rw [Nat.length_toDigits_le_iff (by decide) (by decide), Nat.not_lt]
    calc 10 ^ 744 ≤ 5 ^ scaleBits := hleast
      _ ≤ rankValue rank * 5 ^ scaleBits := Nat.le_mul_of_pos_left _ hrank
  have hupper : (Nat.toDigits 10 (rankValue rank * 5 ^ scaleBits)).length ≤ 309 + scaleBits := by
    rw [Nat.length_toDigits_le_iff (by decide) (by decide)]
    calc rankValue rank * 5 ^ scaleBits < 2 ^ (1024 + scaleBits) * 5 ^ scaleBits :=
          Nat.mul_lt_mul_of_pos_right (rankValue_lt hfinite) (Nat.pow_pos (by decide))
      _ = 2 ^ 1024 * 10 ^ scaleBits := two_pow_add_mul_five_pow 1024 scaleBits
      _ ≤ 10 ^ 309 * 10 ^ scaleBits := Nat.mul_le_mul_right _ hgreatest
      _ = 10 ^ (309 + scaleBits) := by rw [Nat.pow_add]
  have hscale : scaleBits = 1074 := rfl
  rw [Nat.pow_eq, nearestDouble_eq hc, if_neg (by omega), if_neg (by omega), Int.neg_neg,
    Int.toNat_natCast, Int.toNat_of_nonpos (by omega), Nat.pow_zero, Nat.mul_one]
  have heq := mul_five_pow_mul_two_pow (rankValue rank) scaleBits
  have hrounded := nearestRank_congr (Nat.pow_pos (by decide)) (Nat.two_pow_pos _) heq
  rw [nearestRank_rankValue (Nat.le_of_lt hfinite)] at hrounded
  simp only [Double.ofFraction, hrounded]

/-- **The shortest digits of a finite number read back.** -/
theorem nearestDouble_shortestDecimal {rank : Fin (infinityRank + 1)} (hpos : 0 < rank.val)
    (hfinite : rank.val < infinityRank) :
    nearestDouble false (shortestDecimal rank).1 (shortestDecimal rank).2 =
      .signed false rank := by
  simp only [shortestDecimal]
  generalize hhit : List.findSome? _ _ = hit
  cases hit with
  | none => exact nearestDouble_all_digits hpos hfinite
  | some hit =>
    obtain ⟨place, -, hplace⟩ := List.exists_of_findSome?_eq_some hhit
    obtain ⟨c, hc, rfl⟩ := Option.map_eq_some_iff.1 hplace
    exact of_decide_eq_true (readsAs_of_neighbour? hc)

end PropertyList
