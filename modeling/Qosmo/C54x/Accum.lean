import Qosmo.C54x.Run

/-!
# Qosmo.C54x.Accum

The accumulators as numbers. An accumulator is a 64-bit integer of the emulator that
stands for a register of 40 bits; the memory-mapped words AL, AH and AG (BL, BH and BG)
are its bits 0..15, 16..31 and 32..39. The equations below say what the parts, the sign
extension and the saturation are as numbers, so that the rest is arithmetic.
-/

namespace Qosmo.C54x

open BitVec

/-! ### The parts -/

theorem toNat_append_eq {m n : Nat} (x : BitVec m) (y : BitVec n) :
    (x ++ y).toNat = x.toNat * 2 ^ n + y.toNat := by
  rw [toNat_append, ← Nat.shiftLeft_add_eq_or_of_lt y.isLt, Nat.shiftLeft_eq]

section

variable (acc : Acc) (v : Word)

theorem putLow_eq : putLow acc v = (acc >>> 16).setWidth 48 ++ v := by
  have hmask : ∀ i < 64, (~~~ 0xFFFF#64).getLsbD i = decide (16 ≤ i) := by decide
  apply eq_of_getLsbD_eq
  intro i hi
  rw [putLow, getLsbD_or, getLsbD_and, hmask i hi, getLsbD_append]
  by_cases hlow : i < 16
  · simp [hlow, hi]
  · have hup : i - 16 < 48 := by omega
    have hat : 16 + (i - 16) = i := by omega
    simp [hlow, hi, hup, hat, Nat.le_of_not_lt hlow]

theorem putHigh_eq : putHigh acc v = (acc >>> 32).setWidth 32 ++ v ++ acc.setWidth 16 := by
  have hmask : ∀ i < 64,
      (~~~ 0xFFFF0000#64).getLsbD i = (decide (i < 16) || decide (32 ≤ i)) := by decide
  apply eq_of_getLsbD_eq
  intro i hi
  rw [putHigh, getLsbD_or, getLsbD_and, hmask i hi, getLsbD_append,
    getLsbD_append, getLsbD_shiftLeft, getLsbD_setWidth]
  by_cases hlow : i < 16
  · simp [hlow]
  · by_cases hhigh : i < 32
    · have h16 : i - 16 < 16 := by omega
      have h64 : i - 16 < 64 := by omega
      simp [hlow, hi, h16, h64, Nat.not_le_of_lt hhigh]
    · have h16 : ¬ i - 16 < 16 := by omega
      have h32 : i - 16 - 16 < 32 := by omega
      have hat : 32 + (i - 16 - 16) = i := by omega
      have hv : v.getLsbD (i - 16) = false := getLsbD_of_ge v _ (by omega)
      simp [hlow, hi, h16, h32, hat, hv, Nat.le_of_not_lt hhigh]

theorem putGuard_eq : putGuard acc v = (0#24 ++ v.setWidth 8) ++ acc.setWidth 32 := by
  have hmask : ∀ i < 64, (0xFFFFFFFF#64).getLsbD i = decide (i < 32) := by decide
  have hbyte : ∀ i < 16, (0xFF#16).getLsbD i = decide (i < 8) := by decide
  apply eq_of_getLsbD_eq
  intro i hi
  rw [putGuard, getLsbD_or, getLsbD_and, hmask i hi, getLsbD_append,
    getLsbD_append, getLsbD_shiftLeft, getLsbD_setWidth]
  by_cases hlow : i < 32
  · simp [hlow]
  · have h64 : i - 32 < 64 := by omega
    by_cases hguard : i - 32 < 8
    · have hone : (0xFF#16).getLsbD (i - 32) := by
        rw [hbyte _ (by omega)]
        exact decide_eq_true hguard
      simp [hlow, hi, h64, hguard, hone]
    · have hzero : (v &&& 0xFF#16).getLsbD (i - 32) = false := by
        by_cases h16 : i - 32 < 16
        · rw [getLsbD_and, hbyte _ h16, decide_eq_false hguard, Bool.and_false]
        · exact getLsbD_of_ge _ _ (Nat.le_of_not_lt h16)
      simp [hlow, hguard, hzero]

theorem toNat_putLow : (putLow acc v).toNat = acc.toNat / 2 ^ 16 * 2 ^ 16 + v.toNat := by
  have hlt := acc.isLt
  rw [putLow_eq, toNat_append_eq, toNat_setWidth, toNat_ushiftRight,
    Nat.shiftRight_eq_div_pow]
  omega

theorem toNat_putHigh : (putHigh acc v).toNat =
    acc.toNat / 2 ^ 32 * 2 ^ 32 + v.toNat * 2 ^ 16 + acc.toNat % 2 ^ 16 := by
  have hlt := acc.isLt
  rw [putHigh_eq, toNat_append_eq, toNat_append_eq, toNat_setWidth, toNat_setWidth,
    toNat_ushiftRight, Nat.shiftRight_eq_div_pow]
  omega

theorem toNat_putGuard :
    (putGuard acc v).toNat = v.toNat % 2 ^ 8 * 2 ^ 32 + acc.toNat % 2 ^ 32 := by
  rw [putGuard_eq, toNat_append_eq, toNat_append_eq, toNat_setWidth, toNat_setWidth]
  simp

end

theorem toNat_and_mask40 (v : Acc) : (v &&& mask40).toNat = v.toNat % 2 ^ 40 := by
  rw [toNat_and, show mask40.toNat = 2 ^ 40 - 1 from rfl, Nat.and_two_pow_sub_one_eq_mod]

theorem toInt_sext40 (acc : Acc) : (sext40 acc).toInt =
    if acc.toNat % 2 ^ 40 < 2 ^ 39 then (acc.toNat % 2 ^ 40 : Int)
    else (acc.toNat % 2 ^ 40 : Int) - 2 ^ 40 := by
  rw [sext40, toInt_signExtend_of_le (by omega), toInt_eq_toNat_cond,
    toNat_setWidth]
  split <;> split <;> omega

theorem toInt_sext40_bmod (v : Acc) : (sext40 v).toInt = v.toInt.bmod (2 ^ 40) := by
  rw [sext40, toInt_signExtend_of_le (by omega), toInt_setWidth,
    toInt_eq_toNat_bmod, Int.bmod_bmod_of_dvd (by decide)]

theorem toInt_sext40_add (x y : Acc) :
    (sext40 (x + y)).toInt = (x.toInt + y.toInt).bmod (2 ^ 40) := by
  rw [toInt_sext40_bmod, toInt_add, Int.bmod_bmod_of_dvd (by decide)]

theorem toInt_shiftLeft_bmod (v : Acc) (k : Nat) :
    (v <<< k).toInt = (v.toInt * 2 ^ k).bmod (2 ^ 64) := by
  rw [toInt_shiftLeft, toInt_eq_toNat_bmod, Int.bmod_mul_bmod, Nat.shiftLeft_eq]
  push_cast
  rfl

/-! ### Saturation -/

theorem sat32_of_gt {v : Acc} (h : 2 ^ 31 ≤ v.toInt) : sat32 v = 0x7FFFFFFF#64 := by
  have hgt : 0x7FFFFFFF < v.toInt := by omega
  exact if_pos hgt

theorem sat32_of_lt {v : Acc} (h : v.toInt < -2 ^ 31) : sat32 v = 0xFFFFFFFF80000000#64 := by
  have hgt : ¬ 0x7FFFFFFF < v.toInt := by omega
  have hlt : v.toInt < -0x80000000 := by omega
  exact (if_neg hgt).trans (if_pos hlt)

theorem eq_sat32_iff (v : Acc) : v = sat32 v ↔ -2 ^ 31 ≤ v.toInt ∧ v.toInt < 2 ^ 31 := by
  by_cases hgt : 2 ^ 31 ≤ v.toInt
  · rw [sat32_of_gt hgt]
    refine ⟨?_, fun h => by omega⟩
    rintro rfl
    exact absurd hgt (by decide)
  · by_cases hlt : v.toInt < -2 ^ 31
    · rw [sat32_of_lt hlt]
      refine ⟨?_, fun h => by omega⟩
      rintro rfl
      exact absurd hlt (by decide)
    · have hin : sat32 v = v := (if_neg (by omega)).trans (if_neg (by omega))
      exact ⟨fun _ => ⟨by omega, by omega⟩, fun _ => hin.symm⟩

/-- What the overflow pass makes of an accumulator that held `before`. -/
def settle (st1 : Word) (before v : Acc) : Acc :=
  if bitSet st1 St1.ovm = true ∧ bitSet st1 St1.c16 = false ∧ v ≠ before ∧
    sext40 v ≠ sat32 (sext40 v) then sat32 (sext40 v) else v

theorem acc_overflowAcc_self (isB : Bool) (before : Acc) (s : Cpu)
    (hc16 : bitSet s.st1 St1.c16 = false) :
    (overflowAcc isB before s).acc isB = settle s.st1 before (s.acc isB) := by
  unfold overflowAcc settle
  by_cases hkeep : s.acc isB = before ∨ sext40 (s.acc isB) = sat32 (sext40 (s.acc isB))
  · have hno : ¬(bitSet s.st1 St1.ovm ∧ bitSet s.st1 St1.c16 = false ∧
        s.acc isB ≠ before ∧ sext40 (s.acc isB) ≠ sat32 (sext40 (s.acc isB))) := by tauto
    rw [if_neg hno]
    simp only [hkeep, if_true]
  · simp only [hkeep, if_false]
    push Not at hkeep
    cases hovm : bitSet s.st1 St1.ovm with
    | false => cases isB <;> simp [Cpu.acc]
    | true => cases isB <;> simp_all [Cpu.acc]

theorem overflowAcc_frame (isB : Bool) (before : Acc) (s : Cpu) :
    (overflowAcc isB before s).acc (!isB) = s.acc (!isB) ∧
      (overflowAcc isB before s).st1 = s.st1 := by
  unfold overflowAcc
  by_cases hkeep : s.acc isB = before ∨ sext40 (s.acc isB) = sat32 (sext40 (s.acc isB))
  · simp only [hkeep, if_true, true_and]
  · simp only [hkeep, if_false]
    cases hovm : bitSet s.st1 St1.ovm <;> cases isB <;> simp [Cpu.acc]

theorem acc_overflowPass (isB : Bool) (before s : Cpu) :
    (overflowPass before s).acc isB = settle s.st1 (before.acc isB) (s.acc isB) := by
  unfold overflowPass
  cases hc16 : bitSet s.st1 St1.c16 with
  | true => simp [settle, hc16]
  | false =>
    simp only [Bool.false_eq_true, if_false]
    obtain ⟨hother, hst1⟩ := overflowAcc_frame false before.a s
    cases isB with
    | false =>
      rw [← acc_overflowAcc_self _ _ _ hc16]
      exact (overflowAcc_frame true before.b (overflowAcc false before.a s)).1
    | true =>
      rw [← hst1] at hc16
      rw [acc_overflowAcc_self _ _ _ hc16, hst1]
      exact congrArg (settle s.st1 before.b) hother

end Qosmo.C54x
