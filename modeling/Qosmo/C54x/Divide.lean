import Qosmo.C54x.Canon
import Qosmo.C54x.Load
import Qosmo.Lib.Restoring

/-!
# Qosmo.C54x.Divide

Division with SUBC: sixteen steps with the divisor as memory operand turn a dividend in the
accumulator into the remainder, in its high word, and the quotient, in its low word.
-/

namespace Qosmo.C54x

open BitVec Prog

/-! ### One step -/

/-- SUBC with a memory operand. -/
def IsSubc (op : Word) : Prop := op &&& 0xFE00 = 0x1E00

instance (op : Word) : Decidable (IsSubc op) := inferInstanceAs (Decidable (_ = _))

theorem acc_subc {op : Word} (hop : IsSubc op) (c : Ctx) (s : Cpu) :
    (execOp op c s).2.acc (dstB op) =
        sext40 (subcStep (sext40 (s.acc (dstB op))) (smemOf op c s)).2 ∧
      (execOp op c s).2.st1 = s.st1 := by
  have hfamily : op &&& 0xF000 = 0x1000 := and_of_and hop rfl
  have hdecode : decode op = .plain execLoad := decode_of_first hfamily rfl rfl
  obtain ⟨u, hu, heq⟩ := execOp_load hdecode rfl c s
  have hkind : op >>> 9 = 0xF := by
    rw [eq_withField hop, ushiftRight_withField]
    rfl
  rw [heq, ← hu.acc, ← hu.st1]
  simp only [hkind]
  refine ⟨acc_setAcc _ _ c _, ?_⟩
  cases dstB op <;> rfl

theorem toInt_shiftLeft_one {v : Acc} (hlow : -2 ^ 62 ≤ v.toInt) (hhigh : v.toInt < 2 ^ 62) :
    (v <<< 1).toInt = 2 * v.toInt := by
  rw [toInt_shiftLeft_bmod, Int.bmod_eq_of_le (by omega) (by omega)]
  omega

/-- On a register below the scaled divisor SUBC is a step of restoring division. -/
theorem toInt_subcStep {src : Acc} {d : Word} {x : Nat} (hsrc : src.toInt = x)
    (hx : x < d.toNat * 2 ^ 16) :
    (sext40 (subcStep src d).2).toInt = Restoring.step (d.toNat * 2 ^ 16) x := by
  have hd := d.isLt
  have hscaled : (d.setWidth 64 <<< 15).toInt = d.toNat * 2 ^ 15 := by
    rw [toInt_eq_toNat_bmod, toNat_shiftLeft, toNat_setWidth,
      Nat.shiftLeft_eq, Int.bmod_eq_of_le (by omega) (by omega)]
    omega
  have hdiff : (src - d.setWidth 64 <<< 15).toInt = x - d.toNat * 2 ^ 15 := by
    rw [toInt_sub, hsrc, hscaled, Int.bmod_eq_of_le (by omega) (by omega)]
  rw [toInt_sext40_bmod]
  simp only [subcStep, hdiff, Restoring.step]
  by_cases hfits : d.toNat * 2 ^ 16 ≤ 2 * x
  · rw [if_pos hfits, if_pos (by omega), toInt_add,
      toInt_shiftLeft_one (by omega) (by omega), hdiff, show (1 : Acc).toInt = 1 from rfl,
      Int.bmod_eq_of_le (m := 2 ^ 64) (by omega) (by omega),
      Int.bmod_eq_of_le (by omega) (by omega)]
    omega
  · rw [if_neg hfits, if_neg (by omega), toInt_shiftLeft_one (by omega) (by omega), hsrc,
      Int.bmod_eq_of_le (by omega) (by omega)]
    omega

/-! ### Sixteen steps -/

/-- Instructions run one after the other, with the accumulator and the memory operand of each. -/
def operands : Machine Cpu (Ctx × Word) (Bool × Word) :=
  sequence fun c op s => (dstB op, smemOf op c s)

theorem acc_subcs {isB : Bool} {d : Word} {x : Nat} {s : Cpu} {xs : List (Ctx × Word)}
    (hops : ∀ x ∈ xs, IsSubc x.2) (hovm : bitSet s.st1 St1.ovm = false)
    (hacc : (s.acc isB).toInt = x) (hx : x < d.toNat * 2 ^ 16)
    (htrace : operands.trace s xs = List.replicate xs.length (isB, d)) :
    ((operands.final s xs).acc isB).toInt =
      (Restoring.step (d.toNat * 2 ^ 16))^[xs.length] x := by
  induction xs generalizing s x with
  | nil => exact hacc
  | cons y ys ih =>
    rw [List.forall_mem_cons] at hops
    rw [Machine.trace_cons, List.length_cons, List.replicate_succ] at htrace
    obtain ⟨hhead, htail⟩ := List.cons.inj htrace
    obtain ⟨hdst, hword⟩ := Prod.mk.inj hhead
    obtain ⟨hstep, hst1⟩ := acc_subc hops.1 y.1 s
    have hcanon : Canon (s.acc isB) := by
      have hd := d.isLt
      exact canon_iff_toInt.mpr (by omega)
    have hnext : ((runOp y.1 y.2 s).acc isB).toInt = Restoring.step (d.toNat * 2 ^ 16) x := by
      rw [acc_runOp_of_ovm isB (by rw [hst1, hovm]), ← hdst, hstep, hword, hdst, ← hcanon]
      exact toInt_subcStep hacc hx
    have hlt : Restoring.step (d.toNat * 2 ^ 16) x < d.toNat * 2 ^ 16 := by
      have hone := Restoring.iterate_lt hx 1
      rwa [Function.iterate_one] at hone
    have hovm' : bitSet (runOp y.1 y.2 s).st1 St1.ovm = false := by rw [st1_runOp, hst1, hovm]
    rw [Machine.final_cons, List.length_cons, Function.iterate_succ_apply]
    exact ih hops.2 hovm' hnext hlt htail

/-- Sixteen SUBC steps with the divisor `d`, with OVM clear, on an accumulator that holds `a`: the
remainder in the high word and the quotient in the low word. -/
theorem subc_divides (s : Cpu) (xs : List (Ctx × Word)) (isB : Bool) (d : Word) (a : Nat)
    (ha : a < d.toNat * 2 ^ 16) (hacc : (s.acc isB).toInt = a)
    (hovm : bitSet s.st1 St1.ovm = false) (hops : ∀ x ∈ xs, IsSubc x.2)
    (htrace : operands.trace s xs = List.replicate 16 (isB, d)) :
    ((operands.final s xs).acc isB).toInt = (a % d.toNat * 2 ^ 16 + a / d.toNat : Nat) := by
  have hlen : xs.length = 16 := by
    have hlength := congrArg List.length htrace
    rwa [operands, length_trace_sequence, List.length_replicate] at hlength
  rw [← hlen] at htrace
  rw [acc_subcs hops hovm hacc ha htrace, hlen, Restoring.divides ha]

def dividend : Cpu := { operandInT 17 with a := 1000003 }

/-- SUBC *AR0,A sixteen times: 1000003 = 17 · 58823 + 12. -/
theorem subc_divides_by_17 :
    ((operands.final dividend (List.replicate 16 (.boot, 0x1E80))).acc false).toInt =
      12 * 2 ^ 16 + 58823 :=
  subc_divides dividend (List.replicate 16 (.boot, 0x1E80)) false 17 1000003 (by decide)
    (by decide) (by decide) (by decide) (by decide +kernel)

end Qosmo.C54x
