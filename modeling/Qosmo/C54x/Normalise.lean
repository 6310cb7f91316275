import Qosmo.C54x.Canon
import Qosmo.C54x.Load
import Qosmo.Lib.Scale

/-!
# Qosmo.C54x.Normalise

Block floating point: EXP counts the redundant sign bits of an accumulator into T, and NORM shifts
by T. The pair scales every accumulator but zero to full scale, a number of 32 bits whose two top
bits differ.
-/

namespace Qosmo.C54x

open BitVec Prog

/-! ### Counting sign bits -/

/-- The scan stops at the highest bit that is set. -/
theorem leadingZeros_spec {uv : Acc} {n : Nat} (hpos : 0 < uv.toNat) (hlt : uv.toNat < 2 ^ n) :
    ∃ top, leadingZeros uv n + (top + 1) = n ∧ 2 ^ top ≤ uv.toNat ∧ uv.toNat < 2 ^ (top + 1) := by
  induction n with
  | zero => omega
  | succ n ih =>
    have hbit : bitSet uv n = uv.toNat.testBit n := rfl
    cases hset : bitSet uv n with
    | true =>
      rw [hbit] at hset
      exact ⟨n, by simp [leadingZeros, hbit, hset], Nat.ge_two_pow_of_testBit hset, hlt⟩
    | false =>
      have hlt' : uv.toNat < 2 ^ n := by
        rw [hbit, Nat.testBit_eq_decide_div_mod_eq, decide_eq_false_iff_not] at hset
        have hquot : uv.toNat / 2 ^ n < 2 := by
          rw [Nat.div_lt_iff_lt_mul (Nat.two_pow_pos n), Nat.mul_comm, ← Nat.pow_succ]
          exact hlt
        have hquot' : uv.toNat / 2 ^ n = 0 := by
          generalize uv.toNat / 2 ^ n = q at hset hquot
          omega
        exact Nat.lt_of_div_eq_zero (Nat.two_pow_pos n) hquot'
      obtain ⟨top, hlen, hbounds⟩ := ih hlt'
      exact ⟨top, by simp [leadingZeros, hset]; omega, hbounds⟩

/-- What EXP puts into T. -/
def exponent (val : Acc) : Int :=
  let uv := (if val.toInt < 0 then ~~~ val else val) &&& mask40
  if val = 0 then 0 else if val = -1 then 31 else (leadingZeros uv 39 : Int) - 8

/-- The top bit that differs from the sign is to be brought to bit 30. -/
theorem exponent_spec {val : Acc} (hval : Canon val) (hzero : val.toInt ≠ 0)
    (hone : val.toInt ≠ -1) :
    ∃ top : Nat, top + exponent val = 30 ∧ top < 39 ∧
      (0 < val.toInt → 2 ^ top ≤ val.toInt ∧ val.toInt < 2 ^ (top + 1)) ∧
      (val.toInt < 0 → -2 ^ (top + 1) ≤ val.toInt ∧ val.toInt < -2 ^ top) := by
  have hbounds := canon_iff_toInt.mp hval
  have hne0 : val ≠ 0 := fun h => hzero (by rw [h]; rfl)
  have hne1 : val ≠ -1 := fun h => hone (by rw [h]; rfl)
  -- the scan runs over the magnitude of a positive number, and over that of `-x - 1`
  have huv : (((if val.toInt < 0 then ~~~ val else val) &&& mask40).toNat : Int) =
      if val.toInt < 0 then -val.toInt - 1 else val.toInt := by
    rw [toNat_and_mask40]
    have hcond := toInt_eq_toNat_cond val
    have hlt := val.isLt
    split at hcond
    all_goals split
    all_goals first | rw [toNat_not] | skip
    all_goals omega
  generalize hscan : (if val.toInt < 0 then ~~~ val else val) &&& mask40 = uv at huv
  obtain ⟨top, hlen, hlow, hhigh⟩ : ∃ top, leadingZeros uv 39 + (top + 1) = 39 ∧
      2 ^ top ≤ uv.toNat ∧ uv.toNat < 2 ^ (top + 1) := by
    apply leadingZeros_spec
    all_goals split at huv <;> omega
  have hexp : exponent val = leadingZeros uv 39 - 8 := by
    simp only [exponent, hscan]
    rw [if_neg hne0, if_neg hne1]
  have hlow' : (2 : Int) ^ top ≤ uv.toNat := by exact_mod_cast hlow
  have hhigh' : (uv.toNat : Int) < 2 ^ (top + 1) := by exact_mod_cast hhigh
  refine ⟨top, by omega, by omega, fun hpos => ?_, fun hneg => ?_⟩
  · rw [if_neg (by omega)] at huv
    omega
  · rw [if_pos hneg] at huv
    omega

/-! ### Shifting by the exponent -/

theorem toInt_shiftAcc {v : Acc} {t : Int} (hlow : -2 ^ 39 ≤ scale v.toInt t)
    (hhigh : scale v.toInt t < 2 ^ 39) : (sext40 (shiftAcc v t)).toInt = scale v.toInt t := by
  rw [toInt_sext40_bmod, shiftAcc]
  rcases lt_or_ge t 0 with hneg | hpos
  · rw [if_neg (by omega), toInt_sshiftRight, Int.shiftRight_eq_div_pow]
    rw [scale_of_neg hneg] at hlow hhigh ⊢
    push_cast
    exact Int.bmod_eq_of_le (by omega) (by omega)
  · rw [scale_of_nonneg hpos] at hlow hhigh ⊢
    rw [if_pos hpos, toInt_shiftLeft_bmod, Int.bmod_bmod_of_dvd (by decide)]
    exact Int.bmod_eq_of_le (by omega) (by omega)

def expOp (isB : Bool) : Word := if isB then 0xF58E else 0xF48E

def normOp (src dst : Bool) : Word :=
  0xF48F ||| (BitVec.ofBool src).setWidth 16 <<< 9 ||| (BitVec.ofBool dst).setWidth 16 <<< 8

theorem execOp_exp (isB : Bool) (c : Ctx) (s : Cpu) : (execOp (expOp isB) c s).2 =
    { s with lkUsed := false, t := BitVec.ofInt 16 (exponent (sext40 (s.acc isB))) } := by
  have hop : expOp isB &&& 0xFEFF = 0xF48E := by cases isB <;> rfl
  have hdecode : decode (expOp isB) = .plain execExp := decode_of_first hop rfl rfl
  rw [execOp_of_decode hdecode, run_plain]
  cases isB <;> rfl

theorem execOp_norm (src dst : Bool) (c : Ctx) (s : Cpu) :
    (execOp (normOp src dst) c s).2.acc dst =
        sext40 (shiftAcc (sext40 (s.acc src)) (s.t.setWidth 6).toInt) ∧
      (execOp (normOp src dst) c s).2.t = s.t := by
  have hop : normOp src dst &&& 0xFCFF = 0xF48F := by cases src <;> cases dst <;> rfl
  have hdecode : decode (normOp src dst) = .plain execNorm := decode_of_first hop rfl rfl
  rw [execOp_of_decode hdecode, run_plain]
  cases src <;> cases dst <;> exact ⟨rfl, rfl⟩

/-! ### EXP and NORM -/

/-- `y` is `x` at full scale: a number of 32 bits whose two top bits differ, shifted there by
`t`. -/
structure FullScale (x t y : Int) : Prop where
  pos : 0 < x → 2 ^ 30 ≤ y ∧ y < 2 ^ 31
  neg : x < 0 → -2 ^ 31 ≤ y ∧ y < -2 ^ 30
  shifted : y = scale x t

theorem fullScale_exponent {val : Acc} (hval : Canon val) (hzero : val.toInt ≠ 0) :
    FullScale val.toInt (exponent val) (scale val.toInt (exponent val)) ∧
      -8 ≤ exponent val ∧ exponent val ≤ 31 := by
  by_cases hone : val.toInt = -1
  · have hval1 : val = -1 := eq_of_toInt_eq hone
    subst hval1
    exact ⟨⟨by decide, by decide, rfl⟩, by decide⟩
  · obtain ⟨top, hexp, htop, hpos, hneg⟩ := exponent_spec hval hzero hone
    have hone' : (top + 1 : Nat) + exponent val = (31 : Nat) := by omega
    refine ⟨⟨fun h => ?_, fun h => ?_, rfl⟩, by omega, by omega⟩
    · obtain ⟨hlow, hhigh⟩ := hpos h
      have hlow' := (le_scale_iff (x := val.toInt) (n := 30) hexp 1).mpr (by omega)
      have hhigh' := (scale_lt_iff (x := val.toInt) hone' 1).mpr (by omega)
      omega
    · obtain ⟨hlow, hhigh⟩ := hneg h
      have hlow' := (le_scale_iff (x := val.toInt) hone' (-1)).mpr (by omega)
      have hhigh' := (scale_lt_iff (x := val.toInt) (n := 30) hexp (-1)).mpr (by omega)
      omega

/-- T and its six low bits hold the exponents that occur. -/
theorem toInt_ofInt_exponent {e : Int} (hlow : -8 ≤ e) (hhigh : e ≤ 31) :
    (BitVec.ofInt 16 e).toInt = e ∧ ((BitVec.ofInt 16 e).setWidth 6).toInt = e := by
  constructor
  · rw [toInt_ofInt, Int.bmod_eq_of_le (by omega) (by omega)]
  · rw [toInt_setWidth, toNat_ofInt, Int.bmod_def]
    omega

/-- EXP and then NORM, on an accumulator that is not zero and to any destination: the accumulator
at full scale, shifted by the T that EXP computed and NORM leaves. -/
theorem norm_exp (isB dst : Bool) (c c' : Ctx) (s : Cpu)
    (hzero : (sext40 (s.acc isB)).toInt ≠ 0) :
    let u := runOp c (expOp isB) s
    let v := runOp c' (normOp isB dst) u
    FullScale (sext40 (s.acc isB)).toInt v.t.toInt (v.acc dst).toInt ∧ v.t = u.t := by
  intro u v
  have hu : (execOp (expOp isB) c s).2.acc isB = s.acc isB := by
    rw [execOp_exp]
    cases isB <;> rfl
  have hacc : u.acc isB = s.acc isB := acc_runOp_of_keeps hu (.inl rfl)
  have ht : u.t = BitVec.ofInt 16 (exponent (sext40 (s.acc isB))) := by
    rw [t_runOp, execOp_exp]
  obtain ⟨hnorm, hkeep⟩ := execOp_norm isB dst c' u
  obtain ⟨hfull, hlow, hhigh⟩ := fullScale_exponent (canon_sext40 _) hzero
  obtain ⟨hword, hfield⟩ := toInt_ofInt_exponent hlow hhigh
  have hvt : v.t = u.t := (t_runOp c' _ u).trans hkeep
  rw [hacc, ht, hfield] at hnorm
  have hrange : -2 ^ 31 ≤ scale (sext40 (s.acc isB)).toInt (exponent (sext40 (s.acc isB))) ∧
      scale (sext40 (s.acc isB)).toInt (exponent (sext40 (s.acc isB))) < 2 ^ 31 := by
    rcases lt_or_gt_of_ne hzero with hneg | hpos
    · have hbounds := hfull.neg hneg
      omega
    · have hbounds := hfull.pos hpos
      omega
  have hshift := toInt_shiftAcc (v := sext40 (s.acc isB)) (t := exponent (sext40 (s.acc isB)))
    (by omega) (by omega)
  -- at full scale the accumulator is within 32 bits, so that OVM does not matter
  have hv : v.acc dst = _ := acc_runOp_of_keeps hnorm (.inr (by
    rw [← canon_sext40 _, hshift]
    exact hrange))
  rw [hv, hvt, ht, hword, hshift]
  exact ⟨hfull, rfl⟩

/-- A core behind a reset with the least accumulator, −2³⁹, in B. -/
def least : Cpu := { (boot []).toCpu with b := 0xFFFFFF8000000000 }

/-- EXP B, NORM B,A: T becomes −8, and A holds −2³¹. -/
theorem norm_exp_least :
    let v := runOp .boot (normOp true false) (runOp .boot (expOp true) least)
    FullScale (-2 ^ 39) (-8) (v.acc false).toInt :=
  (norm_exp true false .boot .boot least (by decide)).1

end Qosmo.C54x
