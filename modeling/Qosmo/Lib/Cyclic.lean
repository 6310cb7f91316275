import Mathlib.Algebra.Order.Ring.Abs
import Mathlib.Data.BitVec
import Mathlib.Data.Int.ModEq
import Mathlib.Tactic.Linarith
import Mathlib.Tactic.Ring

/-!
# Qosmo.Lib.Cyclic

Counters that go round.

Two readings of a counter with `n` values are compared modulo `n`: they are within `k` of each
other when one can be reached from the other by at most `k` steps, either way round. Programs
compare the numbers instead, which is the same only away from the place where the counter starts
again (`within_iff`). A remainder that the language takes with the sign of its argument is brought
into range by `fold`.
-/

namespace Qosmo.Cyclic

/-- At most `k` steps lead from `y` to `x`, on a circle of `n`. -/
def Within (n k x y : Int) : Prop := ∃ e : Int, |e| ≤ k ∧ x ≡ y + e [ZMOD n]

variable {n k x y : Int}

/-- The remainder keeps the residue, whatever its sign. -/
theorem tmod_modEq (x n : Int) : x.tmod n ≡ x [ZMOD n] := by
  refine Int.modEq_iff_dvd.mpr ⟨x.tdiv n, ?_⟩
  have hdiv := Int.mul_tdiv_add_tmod x n
  linarith

/-- `w = x % n; if (w < 0) w += n;` -/
def fold (n x : Int) : Int := if x.tmod n < 0 then x.tmod n + n else x.tmod n

theorem fold_eq_emod (hn : 0 < n) (x : Int) : fold n x = x % n := by
  have hnonneg := Int.emod_nonneg x hn.ne'
  have hlt := Int.emod_lt_of_pos x hn
  unfold fold
  rw [Int.tmod_eq_emod]
  split <;> split <;> omega

theorem fold_modEq (hn : 0 < n) (x : Int) : fold n x ≡ x [ZMOD n] := by
  rw [fold_eq_emod hn]
  exact Int.mod_modEq x n

/-- A folded remainder fits any word that can hold `n`. -/
theorem toNat_ofInt_fold {w : Nat} (hn : 0 < n) (hw : n ≤ 2 ^ w) (x : Int) :
    ((BitVec.ofInt w (fold n x)).toNat : Int) = fold n x := by
  have hnonneg := Int.emod_nonneg x hn.ne'
  have hlt := Int.emod_lt_of_pos x hn
  rw [BitVec.toNat_ofInt, fold_eq_emod hn, Int.emod_eq_of_lt hnonneg (by push_cast; omega)]
  exact Int.toNat_of_nonneg hnonneg

theorem Within.mono {k' : Int} (h : Within n k x y) (hk : k ≤ k') : Within n k' x y := by
  obtain ⟨e, he, hxy⟩ := h
  exact ⟨e, he.trans hk, hxy⟩

/-- As numbers, two readings within `k` of each other are close together or at the two ends. -/
theorem within_iff (hx : 0 ≤ x) (hxn : x < n) (hy : 0 ≤ y) (hyn : y < n) (hk : 2 * k < n) :
    Within n k x y ↔ |x - y| ≤ k ∨ n - k ≤ |x - y| := by
  constructor
  · rintro ⟨e, he, hxy⟩
    obtain ⟨q, hq⟩ := hxy.symm.dvd
    have hdiff : x - y = e + n * q := by linarith
    rw [abs_le] at he
    -- the readings are less than one round apart, so the counter has gone round once at most
    have hlow : -1 ≤ q := by
      by_contra hneg
      have hle : n * q ≤ n * -2 := mul_le_mul_of_nonneg_left (by omega) (by omega)
      omega
    have hhigh : q ≤ 1 := by
      by_contra hbig
      have hle : n * 2 ≤ n * q := mul_le_mul_of_nonneg_left (by omega) (by omega)
      omega
    have hcases : q = -1 ∨ q = 0 ∨ q = 1 := by omega
    rcases hcases with rfl | rfl | rfl
    · right
      rw [abs_of_neg (by omega)]
      omega
    · left
      rw [abs_le]
      omega
    · right
      rw [abs_of_pos (by omega)]
      omega
  · rintro (hnear | hends)
    · refine ⟨x - y, hnear, ?_⟩
      rw [add_sub_cancel]
    · by_cases hle : y ≤ x
      · rw [abs_of_nonneg (by omega)] at hends
        refine ⟨x - y - n, ?_, ?_⟩
        · rw [abs_le]
          omega
        · have hround : y + (x - y - n) = x - n := by ring
          rw [hround]
          exact (Int.modEq_sub_modulus_iff).mpr rfl
      · rw [abs_of_neg (by omega)] at hends
        refine ⟨x - y + n, ?_, ?_⟩
        · rw [abs_le]
          omega
        · have hround : y + (x - y + n) = x + n := by ring
          rw [hround]
          exact (Int.modEq_add_modulus_iff).mpr rfl

/-- A step of at most half a round is the shortest one to where it leads. -/
theorem abs_le_of_modEq {d d' : Int} (hhalf : 2 * |d| ≤ n) (h : d' ≡ d [ZMOD n]) : |d| ≤ |d'| := by
  obtain ⟨q, hq⟩ := h.dvd
  have hd : d = d' + n * q := by linarith
  by_cases hzero : q = 0
  · rw [hd, hzero, mul_zero, add_zero]
  · have hround : n ≤ |n * q| := by
      rw [abs_mul, abs_of_nonneg (by have := abs_nonneg d; omega)]
      exact le_mul_of_one_le_right (by have := abs_nonneg d; omega) (Int.one_le_abs hzero)
    have htri : |n * q| ≤ |d| + |d'| := by
      have hnq : n * q = d - d' := by linarith
      rw [hnq]
      exact abs_sub d d'
    omega

end Qosmo.Cyclic
