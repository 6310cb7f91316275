import Mathlib.Tactic.Positivity

/-!
# Qosmo.Lib.Scale

An integer scaled by a power of two, rounding down: what a shift to the left by a signed count
computes. Scaling respects the bounds that are multiples of a power of two themselves, and this is
what normalising a number rests on.
-/

namespace Qosmo

/-- `x · 2 ^ t`, rounded down. -/
def scale (x t : Int) : Int := if 0 ≤ t then x * 2 ^ t.toNat else x / 2 ^ (-t).toNat

variable {t : Int}

theorem scale_of_nonneg (h : 0 ≤ t) (x : Int) : scale x t = x * 2 ^ t.toNat := if_pos h

theorem scale_of_neg (h : t < 0) (x : Int) : scale x t = x / 2 ^ (-t).toNat :=
  if_neg (Int.not_le.mpr h)

theorem scale_lt_iff {x : Int} {m n : Nat} (h : (m : Int) + t = n) (c : Int) :
    scale x t < c * 2 ^ n ↔ x < c * 2 ^ m := by
  rcases lt_or_ge t 0 with hright | hleft
  · obtain ⟨k, hk⟩ := Int.eq_ofNat_of_zero_le (a := -t) (by omega)
    have hm : m = n + k := by omega
    have hsplit : c * 2 ^ m = c * 2 ^ n * 2 ^ k := by rw [hm, pow_add, mul_assoc]
    rw [scale_of_neg hright, hsplit, hk]
    exact Int.ediv_lt_iff_lt_mul (by positivity)
  · obtain ⟨k, rfl⟩ := Int.eq_ofNat_of_zero_le hleft
    have hn : n = m + k := by omega
    have hsplit : c * 2 ^ n = c * 2 ^ m * 2 ^ k := by rw [hn, pow_add, mul_assoc]
    rw [scale_of_nonneg hleft, hsplit]
    exact Int.mul_lt_mul_right (by positivity)

theorem le_scale_iff {x : Int} {m n : Nat} (h : (m : Int) + t = n) (c : Int) :
    c * 2 ^ n ≤ scale x t ↔ c * 2 ^ m ≤ x := by
  rw [← Int.not_lt, scale_lt_iff h, Int.not_lt]

end Qosmo
