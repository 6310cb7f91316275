import Mathlib.Tactic.Ring

/-!
# Qosmo.Lib.Restoring

Restoring division in one register.

The register starts with the dividend. Each step doubles it and, if the scaled divisor
`D = d * 2 ^ n` fits, subtracts that and adds one. The low bits collect the quotient while the
partial remainder moves up; after `n` steps the remainder is in the bits above `n` and the quotient
below.
-/

namespace Qosmo.Restoring

/-- One step with the scaled divisor `D`. -/
def step (D a : Nat) : Nat := if D ≤ 2 * a then 2 * a - D + 1 else 2 * a

/-- After `i` steps from `a` with the quotient bits `q` found so far, the register holds `x`. -/
structure Invariant (D a i q x : Nat) : Prop where
  bits : q < 2 ^ i
  value : x + q * D = 2 ^ i * a + q
  lt : x < D

variable {D a i q x : Nat}

theorem Invariant.step_of_fits (h : Invariant D a i q x) (hfits : D ≤ 2 * x) :
    Invariant D a (i + 1) (2 * q + 1) (step D x) := by
  have hlt := h.lt
  have hbits := h.bits
  have hvalue := h.value
  rw [step, if_pos hfits]
  refine ⟨?_, ?_, by omega⟩
  · rw [pow_succ]
    omega
  · have hprod : (2 * q + 1) * D = 2 * (q * D) + D := by ring
    have hpow : 2 ^ (i + 1) * a = 2 * (2 ^ i * a) := by ring
    rw [hprod, hpow]
    omega

theorem Invariant.step_of_not_fits (h : Invariant D a i q x) (hfits : ¬ D ≤ 2 * x) :
    Invariant D a (i + 1) (2 * q) (step D x) := by
  have hbits := h.bits
  have hvalue := h.value
  rw [step, if_neg hfits]
  refine ⟨?_, ?_, by omega⟩
  · rw [pow_succ]
    omega
  · have hprod : 2 * q * D = 2 * (q * D) := by ring
    have hpow : 2 ^ (i + 1) * a = 2 * (2 ^ i * a) := by ring
    rw [hprod, hpow]
    omega

theorem invariant_iterate (ha : a < D) (i : Nat) : ∃ q, Invariant D a i q ((step D)^[i] a) := by
  induction i with
  | zero => exact ⟨0, by simp, by simp, ha⟩
  | succ i ih =>
    obtain ⟨q, hinv⟩ := ih
    rw [Function.iterate_succ_apply']
    by_cases hfits : D ≤ 2 * (step D)^[i] a
    · exact ⟨_, hinv.step_of_fits hfits⟩
    · exact ⟨_, hinv.step_of_not_fits hfits⟩

/-- The register stays below the scaled divisor. -/
theorem iterate_lt (ha : a < D) (i : Nat) : (step D)^[i] a < D :=
  (invariant_iterate ha i).elim fun _ h => h.lt

/-- After `n` steps the register holds remainder and quotient. -/
theorem divides {d n : Nat} (ha : a < d * 2 ^ n) :
    (step (d * 2 ^ n))^[n] a = a % d * 2 ^ n + a / d := by
  obtain ⟨q, hbits, hvalue, hlt⟩ := invariant_iterate ha n
  generalize (step (d * 2 ^ n))^[n] a = x at hvalue hlt ⊢
  have hscaled : q * (d * 2 ^ n) = 2 ^ n * (q * d) := by ring
  rw [hscaled] at hvalue
  have hpos : 0 < 2 ^ n := Nat.two_pow_pos n
  -- the quotient bits do not exceed the quotient, for they fit below the remainder
  have hle : q * d ≤ a := by
    by_contra hgt
    have hmul : 2 ^ n * (a + 1) ≤ 2 ^ n * (q * d) := Nat.mul_le_mul_left _ (by omega)
    rw [Nat.mul_add] at hmul
    omega
  obtain ⟨r, rfl⟩ := Nat.exists_eq_add_of_le hle
  have hx : x = r * 2 ^ n + q := by
    have hsplit : 2 ^ n * (q * d + r) = 2 ^ n * (q * d) + r * 2 ^ n := by ring
    rw [hsplit] at hvalue
    omega
  have hr : r < d := by
    have hmul : r * 2 ^ n < d * 2 ^ n := by omega
    exact Nat.lt_of_mul_lt_mul_right hmul
  have hd : 0 < d := by omega
  rw [hx, Nat.mul_comm q d, Nat.mul_add_mod, Nat.mod_eq_of_lt hr, Nat.mul_add_div hd,
    Nat.div_eq_of_lt hr, Nat.add_zero]

end Qosmo.Restoring
