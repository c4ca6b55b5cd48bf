import Mathlib.Tactic.Positivity
import Mathlib.Tactic.Ring
import PropertyList.Number.Double

/-!
# Rounding

A fraction is rounded to the rank whose number is nearest. What it is rounded to depends on the
fraction alone and not on how it is written, and the number of a rank is rounded to the rank itself.
The numbers of the ranks grow with the ranks, so that no other rank has the same number.

## Main results

* `rankValue_lt_succ`, `rankValue_lt`
* `rankBelow_rankValue`
* `nearestRank_congr`, `nearestRank_rankValue`
-/

namespace PropertyList

/-! ### Ranks and their numbers -/

theorem rankValue_of_lt {r : Nat} (hr : r < significandBound) : rankValue r = r :=
  if_pos hr

theorem rankValue_of_le {r : Nat} (hr : significandBound ≤ r) :
    rankValue r =
      (significandBound + r % significandBound) * 2 ^ (r / significandBound - 1) :=
  if_neg (Nat.not_lt.2 hr)

/-- The number with the significand `significandBound + m` and the exponent `e`. -/
theorem rankValue_mul_add {e m : Nat} (he : 0 < e) (hm : m < significandBound) :
    rankValue (significandBound * e + m) = (significandBound + m) * 2 ^ (e - 1) := by
  have hle : significandBound ≤ significandBound * e + m :=
    Nat.le_add_right_of_le (Nat.le_mul_of_pos_right _ he)
  have hmod : (significandBound * e + m) % significandBound = m := by
    rw [Nat.mul_add_mod, Nat.mod_eq_of_lt hm]
  have hdiv : (significandBound * e + m) / significandBound = e := by
    rw [Nat.mul_add_div (by decide), Nat.div_eq_of_lt hm, Nat.add_zero]
  rw [rankValue_of_le hle, hmod, hdiv]

/-- Every rank from `significandBound` on has an exponent and a significand. -/
theorem exists_eq_mul_add {r : Nat} (hr : significandBound ≤ r) :
    ∃ e m, 0 < e ∧ m < significandBound ∧ r = significandBound * e + m :=
  ⟨r / significandBound, r % significandBound, Nat.div_pos hr (by decide),
    Nat.mod_lt r (by decide), (Nat.div_add_mod r significandBound).symm⟩

/-- Greater ranks have greater numbers. -/
theorem rankValue_lt_succ (r : Nat) : rankValue r < rankValue (r + 1) := by
  rcases Nat.lt_or_ge r significandBound with hr | hr
  · rw [rankValue_of_lt hr]
    rcases Nat.lt_or_ge (r + 1) significandBound with hr' | hr'
    · rw [rankValue_of_lt hr']
      exact Nat.lt_succ_self r
    · obtain rfl : r = significandBound - 1 := by omega
      decide
  · obtain ⟨e, m, he, hm, rfl⟩ := exists_eq_mul_add hr
    rw [rankValue_mul_add he hm]
    rcases Nat.lt_or_ge (m + 1) significandBound with hm' | hm'
    · rw [Nat.add_assoc, rankValue_mul_add he hm']
      exact Nat.mul_lt_mul_of_pos_right (Nat.lt_succ_self _) (by positivity)
    · -- The significand is full, so the next number has the next exponent.
      obtain rfl : m = significandBound - 1 := by omega
      have hnext : significandBound * e + (significandBound - 1) + 1 =
          significandBound * (e + 1) + 0 := by
        rw [Nat.mul_add]
        rfl
      obtain ⟨e, rfl⟩ : ∃ n, e = n + 1 := ⟨e - 1, by omega⟩
      rw [hnext, rankValue_mul_add (by omega) (by decide), Nat.add_sub_cancel,
        Nat.add_sub_cancel, Nat.pow_succ]
      have hpow : 0 < 2 ^ e := by positivity
      have hbound : significandBound + (significandBound - 1) < significandBound * 2 := by decide
      calc (significandBound + (significandBound - 1)) * 2 ^ e
          < significandBound * 2 * 2 ^ e := Nat.mul_lt_mul_of_pos_right hbound hpow
        _ = (significandBound + 0) * (2 ^ e * 2) := by ring

theorem rankValue_pos {r : Nat} (hr : 0 < r) : 0 < rankValue r := by
  obtain ⟨r, rfl⟩ : ∃ n, r = n + 1 := ⟨r - 1, by omega⟩
  exact Nat.lt_of_le_of_lt (Nat.zero_le _) (rankValue_lt_succ r)

/-- The rank of a number is found again. -/
theorem rankBelow_rankValue (r : Nat) : rankBelow (rankValue r) = r := by
  rcases Nat.lt_or_ge r significandBound with hr | hr
  · rw [rankValue_of_lt hr]
    exact if_pos (by omega)
  · obtain ⟨e, m, he, hm, rfl⟩ := exists_eq_mul_add hr
    obtain ⟨e, rfl⟩ : ∃ n, e = n + 1 := ⟨e - 1, by omega⟩
    rw [rankValue_mul_add he hm, Nat.add_sub_cancel]
    have hbound : significandBound = 2 ^ 52 := by decide
    cases e with
    | zero =>
      rw [Nat.pow_zero, Nat.mul_one]
      exact if_pos (by omega)
    | succ e =>
      -- The significand has one bit more than `significandBound`, so the length tells the exponent.
      have hlog : ((significandBound + m) * 2 ^ (e + 1)).log2 = 52 + (e + 1) := by
        refine (Nat.log2_eq_iff (Nat.mul_ne_zero (by omega) (by positivity))).2 ⟨?_, ?_⟩
        · rw [Nat.pow_add, ← hbound]
          exact Nat.mul_le_mul_right _ (Nat.le_add_right _ _)
        · have hlt : significandBound + m < 2 ^ 53 := by omega
          calc (significandBound + m) * 2 ^ (e + 1) < 2 ^ 53 * 2 ^ (e + 1) :=
                Nat.mul_lt_mul_of_pos_right hlt (by positivity)
            _ = 2 ^ (52 + (e + 1) + 1) := by rw [← Nat.pow_add]; congr 1; omega
      have hlarge : ¬ (significandBound + m) * 2 ^ (e + 1) < 2 * significandBound := by
        rw [Nat.not_lt, Nat.mul_comm 2]
        exact Nat.mul_le_mul (Nat.le_add_right _ _) (Nat.le_self_pow (Nat.succ_ne_zero e) 2)
      rw [rankBelow, if_neg hlarge, hlog, Nat.add_sub_cancel_left, Nat.pow_eq,
        Nat.mul_div_cancel _ (by positivity)]
      ring

/-- Finite numbers are bounded on the scale. -/
theorem rankValue_lt {r : Nat} (hr : r < infinityRank) : rankValue r < 2 ^ (1024 + scaleBits) := by
  rcases Nat.lt_or_ge r significandBound with hlt | hge
  · rw [rankValue_of_lt hlt]
    calc r < 2 ^ 52 := hlt
      _ ≤ 2 ^ (1024 + scaleBits) := Nat.pow_le_pow_right (by decide) (by decide)
  · obtain ⟨e, m, he, hm, rfl⟩ := exists_eq_mul_add hge
    have hexponent : e ≤ 2046 := by
      have hinfinity : infinityRank = significandBound * 2047 := by decide
      by_contra h
      have : significandBound * 2047 ≤ significandBound * e :=
        Nat.mul_le_mul_left _ (by omega)
      omega
    rw [rankValue_mul_add he hm]
    calc (significandBound + m) * 2 ^ (e - 1) < 2 ^ 53 * 2 ^ (e - 1) :=
          Nat.mul_lt_mul_of_pos_right (by simp only [significandBound] at *; omega) (by positivity)
      _ = 2 ^ (53 + (e - 1)) := (Nat.pow_add _ _ _).symm
      _ ≤ 2 ^ (1024 + scaleBits) := Nat.pow_le_pow_right (by decide) (by rw [scaleBits]; omega)

/-! ### Rounding fractions -/

/-- What a fraction is rounded to does not change when the fraction is extended. -/
theorem nearestRank_mul_left {k : Nat} (hk : 0 < k) (num den : Nat) :
    nearestRank (k * num) (k * den) = nearestRank num den := by
  have hscaled : k * num * Nat.pow 2 scaleBits = k * (num * Nat.pow 2 scaleBits) :=
    Nat.mul_assoc _ _ _
  have hmiddle (m : Nat) : m * (k * den) = k * (m * den) := Nat.mul_left_comm _ _ _
  have hdouble (m : Nat) : 2 * (k * m) = k * (2 * m) := Nat.mul_left_comm _ _ _
  simp only [nearestRank, hscaled, hmiddle, hdouble, Nat.mul_div_mul_left _ _ hk,
    Nat.mul_lt_mul_left hk]

/-- Equal fractions are rounded to the same rank. -/
theorem nearestRank_congr {num den num' den' : Nat} (hden : 0 < den) (hden' : 0 < den')
    (heq : num * den' = num' * den) : nearestRank num den = nearestRank num' den' := by
  rw [← nearestRank_mul_left hden' num den, ← nearestRank_mul_left hden num' den',
    Nat.mul_comm den' num, heq, Nat.mul_comm num' den, Nat.mul_comm den' den]

/-- The number of a rank is rounded to the rank. -/
theorem nearestRank_rankValue {r : Nat} (hr : r ≤ infinityRank) :
    nearestRank (rankValue r) (2 ^ scaleBits) = r := by
  have hpow : 0 < 2 ^ scaleBits := Nat.two_pow_pos _
  have hrank : rankBelow (rankValue r * 2 ^ scaleBits / 2 ^ scaleBits) = r := by
    rw [Nat.mul_div_cancel _ hpow, rankBelow_rankValue]
  -- The number is below the middle between itself and the next, so it is not rounded up.
  have hbelow : 2 * (rankValue r * 2 ^ scaleBits) <
      (rankValue r + rankValue (r + 1)) * 2 ^ scaleBits := by
    rw [← Nat.mul_assoc]
    refine Nat.mul_lt_mul_of_pos_right ?_ hpow
    have := rankValue_lt_succ r
    omega
  simp only [nearestRank, Nat.pow_eq, hrank, if_pos hbelow]
  exact Nat.min_eq_left hr

end PropertyList
