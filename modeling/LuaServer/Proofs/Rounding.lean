/-
# Quotients in the range of a double

A quotient is rounded to the nearest double.  The doubles end at `(2 ^ 53 - 1) * 2 ^ 971`; the next point of
their grid would be `2 ^ 1024`, and a quotient is rounded to infinity from the middle between the two on,
because the mantissa of the largest double is odd.

Main results: `ofRatio_finite`, `ofRatio_power_finite`.
-/
import Mathlib.Algebra.Group.Nat.Defs
import LuaServer.Number.Double

namespace LuaServer.Double

/-! ## 1. Quotients -/

/-- The middle between the largest double and `2 ^ 1024`. -/
def limit : Nat := (2 ^ 54 - 1) * 2 ^ 970

/-- What is rounded up is at least half a unit above. -/
theorem roundDiv_le {n d : Nat} (hd : 0 < d) : 2 * (roundDiv n d * d) ≤ 2 * n + d := by
  have hdiv : n / d * d + n % d = n := Nat.div_add_mod' n d
  have hnext : (n / d + 1) * d = n / d * d + d := Nat.succ_mul _ _
  simp only [roundDiv]
  repeat' split
  all_goals omega

/-- A quotient with a large exponent is not below the power of two that the exponent stands for. -/
theorem le_of_gridExponent {num den k : Nat} (hnum : num ≠ 0) (hden : 0 < den)
    (h : gridExponent num den = (k : Int) + 1) : den * 2 ^ (k + 53) ≤ num := by
  simp only [gridExponent] at h
  split at h
  · next hlarge =>
    obtain hl : (num.log2 : Int) - den.log2 - 53 = k := by omega
    have hscaled : scaled num den k = (num, den * 2 ^ k) := by simp [scaled]
    rw [hl, hscaled] at hlarge
    have hmul : 2 ^ 53 * (den * 2 ^ k) ≤ num :=
      (Nat.le_div_iff_mul_le (Nat.mul_pos hden (Nat.two_pow_pos k))).mp hlarge
    calc den * 2 ^ (k + 53) = 2 ^ 53 * (den * 2 ^ k) := by rw [pow_add]; ac_rfl
      _ ≤ num := hmul
  · have hl : num.log2 = (den.log2 + 1) + (k + 53) := by omega
    calc den * 2 ^ (k + 53) ≤ 2 ^ (den.log2 + 1) * 2 ^ (k + 53) :=
          Nat.mul_le_mul_right _ (Nat.le_of_lt Nat.lt_log2_self)
      _ = 2 ^ num.log2 := by rw [← pow_add, hl]
      _ ≤ num := Nat.log2_self_le hnum

section
variable {num den e : Nat} (hden : 0 < den) (h : num < (2 ^ 54 - 1) * 2 ^ e * den)
include hden h

/-- Below the middle between `(2 ^ 53 - 1) * 2 ^ (e + 1)` and `2 ^ (e + 54)` the exponent is at most
`e + 1` before rounding. -/
theorem gridExponent_le (hnum : num ≠ 0) : gridExponent num den ≤ e + 1 := by
  refine Int.not_lt.mp fun hlarge => ?_
  obtain ⟨k, hk⟩ := Int.eq_ofNat_of_zero_le (a := gridExponent num den - (e + 2)) (by omega)
  have hexponent : gridExponent num den = ((e + 1 + k : Nat) : Int) + 1 := by omega
  have hle := le_of_gridExponent hnum hden hexponent
  have hmono : den * 2 ^ (54 + e) ≤ den * 2 ^ (e + 1 + k + 53) :=
    Nat.mul_le_mul_left _ (Nat.pow_le_pow_right (by decide) (by omega))
  have hpow : den * 2 ^ (54 + e) = 2 ^ 54 * (2 ^ e * den) := by rw [pow_add]; ac_rfl
  rw [Nat.mul_assoc] at h
  omega

/-- And with that exponent the mantissa is not rounded up to `2 ^ 53`. -/
theorem roundDiv_ne :
    roundDiv (scaled num den (e + 1)).1 (scaled num den (e + 1)).2 ≠ Nat.pow 2 53 := by
  have hscaled : scaled num den (e + 1) = (num, den * 2 ^ (e + 1)) := if_pos (by omega)
  rw [hscaled]
  intro hround
  have hle := roundDiv_le (n := num) (d := den * 2 ^ (e + 1)) (Nat.mul_pos hden (Nat.two_pow_pos _))
  have hpow : den * 2 ^ (e + 1) = 2 * (2 ^ e * den) := by rw [pow_succ]; ac_rfl
  have hround' : roundDiv num (den * 2 ^ (e + 1)) = 2 ^ 53 := hround
  rw [hround', hpow] at hle
  rw [Nat.mul_assoc] at h
  omega

end

/-- **A quotient below the limit is a finite double.** -/
theorem ofRatio_finite {num den : Nat} (hden : 0 < den) (h : num < limit * den) :
    ∃ m e, ofRatio false num den = .finite false m e := by
  by_cases hnum : num = 0
  · exact ⟨0, -1074, if_pos hnum⟩
  rw [limit] at h
  have hbefore : gridExponent num den ≤ 971 := gridExponent_le hden h hnum
  have hafter : gridExponent num den = 971 →
      roundDiv (scaled num den (gridExponent num den)).1 (scaled num den (gridExponent num den)).2
        ≠ Nat.pow 2 53 := by
    intro hlast
    have hlast' : gridExponent num den = ((970 : Nat) : Int) + 1 := hlast
    rw [hlast']
    exact roundDiv_ne hden h
  simp only [ofRatio, if_neg hnum]
  generalize gridExponent num den = e at *
  generalize roundDiv (scaled num den e).1 (scaled num den e).2 = m at *
  by_cases hm : m = Nat.pow 2 53
  · have he : e ≠ 971 := fun he => hafter he hm
    rw [if_pos hm]
    dsimp only
    rw [if_neg (by omega)]
    exact ⟨_, _, rfl⟩
  · rw [if_neg hm]
    dsimp only
    rw [if_neg (by omega)]
    exact ⟨_, _, rfl⟩

/-! ## 2. Powers of two -/

section
variable {m : Nat} {e : Int} (h : m * 2 ^ e.toNat < limit * 2 ^ (-e).toNat)
include h

/-- Below the limit a number is below `2 ^ 1024`. -/
theorem log2_lt (hm : m ≠ 0) : e + m.log2 < 1024 := by
  have hbound : ∀ k, (2 ^ 54 - 1) * 2 ^ k ≤ 2 ^ (54 + k) := by
    intro k
    rw [pow_add]
    exact Nat.mul_le_mul_right _ (Nat.sub_le _ _)
  have hlimit : limit ≤ 2 ^ (54 + 970) := by
    rw [limit]
    exact hbound 970
  have hpow : 2 ^ (m.log2 + e.toNat) < 2 ^ (54 + 970 + (-e).toNat) :=
    calc 2 ^ (m.log2 + e.toNat) = 2 ^ m.log2 * 2 ^ e.toNat := pow_add ..
      _ ≤ m * 2 ^ e.toNat := Nat.mul_le_mul_right _ (Nat.log2_self_le hm)
      _ < limit * 2 ^ (-e).toNat := h
      _ ≤ 2 ^ (54 + 970) * 2 ^ (-e).toNat := Nat.mul_le_mul_right _ hlimit
      _ = 2 ^ (54 + 970 + (-e).toNat) := (pow_add 2 (54 + 970) (-e).toNat).symm
  have hlt := (Nat.pow_lt_pow_iff_right (by decide)).mp hpow
  omega

theorem ofRatio_power_finite :
    ∃ m' e', (if 0 ≤ e then ofRatio false (m * Nat.pow 2 e.toNat) 1
      else ofRatio false m (Nat.pow 2 (-e).toNat)) = .finite false m' e' := by
  have hpow : ∀ k, Nat.pow 2 k = 2 ^ k := fun _ => rfl
  split
  · next he =>
    have hone : 2 ^ (-e).toNat = 1 := by rw [Int.toNat_of_nonpos (by omega), pow_zero]
    rw [hone] at h
    rw [hpow]
    exact ofRatio_finite Nat.one_pos h
  · next he =>
    have hone : m * 2 ^ e.toNat = m := by rw [Int.toNat_of_nonpos (by omega), pow_zero, mul_one]
    rw [hone] at h
    exact ofRatio_finite (Nat.two_pow_pos _) h

end

end LuaServer.Double
