import Qosmo.C54x.Canon
import Qosmo.C54x.Sum
import Qosmo.Lib.Saturating

/-!
# Qosmo.C54x.Saturation

Sums in overflow mode.

An addition leaves 40 bits in the accumulator, and the overflow pass of `c54x_run` saturates them
afterwards, if the accumulator has changed. Accumulators that start in the signed 32-bit range never
leave it, the 40 bits always hold the exact sum, and a sum that must be clamped is a change: so the
two steps together are the saturating addition of the integers (`abstract_runOp`), and sequences
follow.
-/

namespace Qosmo.C54x

open BitVec Clamped

/-! ### The overflow pass as a clamp -/

/-- The range of a signed 32-bit number. -/
def min32 : Int := -2 ^ 31
def max32 : Int := 2 ^ 31 - 1

theorem toInt_sat32 (v : Acc) : (sat32 v).toInt = clamp min32 max32 v.toInt := by
  unfold clamp min32 max32
  by_cases hgt : 2 ^ 31 ≤ v.toInt
  · rw [sat32_of_gt hgt, show (0x7FFFFFFF#64).toInt = 2 ^ 31 - 1 by decide]
    omega
  · by_cases hlt : v.toInt < -2 ^ 31
    · rw [sat32_of_lt hlt, show (0xFFFFFFFF80000000#64).toInt = -2 ^ 31 by decide]
      omega
    · rw [← (eq_sat32_iff v).mpr ⟨by omega, by omega⟩]
      omega

theorem ne_sat32_iff (v : Acc) : v ≠ sat32 v ↔ clamp min32 max32 v.toInt ≠ v.toInt := by
  rw [← toInt_sat32, Ne, Ne, not_iff_not, toInt_inj]
  exact eq_comm

theorem toInt_settle {st1 : Word} {before v : Acc} (hovm : bitSet st1 St1.ovm)
    (hc16 : bitSet st1 St1.c16 = false) (hcanon : Canon v)
    (hbefore : min32 ≤ before.toInt ∧ before.toInt ≤ max32) :
    (settle st1 before v).toInt = clamp min32 max32 v.toInt := by
  have hv : sext40 v = v := Eq.symm hcanon
  unfold settle
  rw [hv]
  by_cases hsame : v = before
  · -- nothing is looked at, and nothing is out of range
    rw [if_neg (fun h => h.2.2.1 hsame), hsame]
    exact ((clamp_eq_self (by decide)).mpr hbefore).symm
  · by_cases hsat : v = sat32 v
    · rw [if_neg (fun h => h.2.2.2 hsat)]
      by_contra hne
      exact (ne_sat32_iff v).mpr (fun h => hne h.symm) hsat
    · rw [if_pos ⟨hovm, hc16, hsame, hsat⟩, toInt_sat32]

theorem flag_overflowPass_eq {before u : Cpu} (isB : Bool) (hc16 : bitSet u.st1 St1.c16 = false) :
    bitSet (overflowPass before u).st0 (ovBit isB) =
      if u.acc isB = before.acc isB ∨ sext40 (u.acc isB) = sat32 (sext40 (u.acc isB))
      then bitSet u.st0 (ovBit isB) else true := by
  rw [st0_overflowPass before u hc16, st0_overflowAcc]
  cases isB with
  | true =>
    split
    · split
      · rfl
      · exact bitSet_setBit_ne _ (by decide)
    · exact bitSet_setBit_self _ _ (by decide)
  | false =>
    have hother : ∀ w, bitSet (setBit w St0.ovb) (ovBit false) = bitSet w (ovBit false) :=
      fun w => bitSet_setBit_ne w (by decide)
    rw [apply_ite (fun w => bitSet w (ovBit false)), hother, ite_self]
    split
    · rfl
    · exact bitSet_setBit_self _ _ (by decide)

theorem flag_of_inRange {before u : Cpu} (isB : Bool) (hc16 : bitSet u.st1 St1.c16 = false)
    (hcanon : Canon (u.acc isB))
    (hbefore : min32 ≤ (before.acc isB).toInt ∧ (before.acc isB).toInt ≤ max32) :
    bitSet (overflowPass before u).st0 (ovBit isB) =
      (bitSet u.st0 (ovBit isB) ||
        decide (clamp min32 max32 (u.acc isB).toInt ≠ (u.acc isB).toInt)) := by
  have hv : sext40 (u.acc isB) = u.acc isB := Eq.symm hcanon
  rw [flag_overflowPass_eq isB hc16, hv]
  by_cases hclamp : clamp min32 max32 (u.acc isB).toInt ≠ (u.acc isB).toInt
  · have hsat := (ne_sat32_iff _).mpr hclamp
    have hchanged : u.acc isB ≠ before.acc isB := by
      intro hsame
      rw [hsame] at hclamp
      exact hclamp ((clamp_eq_self (by decide)).mpr hbefore)
    rw [if_neg (not_or.mpr ⟨hchanged, hsat⟩), decide_eq_true hclamp, Bool.or_true]
  · have hsat : u.acc isB = sat32 (u.acc isB) := by
      by_contra hne
      exact hclamp ((ne_sat32_iff _).mp hne)
    rw [if_pos (.inr hsat), decide_eq_false hclamp, Bool.or_false]

/-! ### One instruction -/

/-- ADD, ADDS, ADDC, SUB, SUBS and SUBB with a memory operand. -/
def IsSum (op : Word) : Prop := op &&& 0xF000 = 0 ∧ sumKind op ≠ 2

instance (op : Word) : Decidable (IsSum op) := inferInstanceAs (Decidable (_ ∧ _))

/-- The operand as a number: ADDS and SUBS take it unsigned, the others as SXM says. -/
def operandInt (op : Word) (s : Cpu) (w : Word) : Int :=
  if sumKind op ≠ 1 ∧ bitSet s.st1 St1.sxm = true then w.toInt else w.toNat

/-- The accumulator an instruction adds to and what it adds, the carry or borrow included. -/
def sumSeen (c : Ctx) (op : Word) (s : Cpu) : Bool × Int :=
  let v := operandInt op s (smemOf op c s) + (carriesIn op s).toNat
  (dstB op, if bitSet op 11 then -v else v)

variable {op : Word}

theorem toInt_addend (hkind : sumKind op ≠ 2) (s : Cpu) (w : Word) :
    (addend op s w).toInt = operandInt op s w := by
  have hunsigned : (w.setWidth 64).toInt = w.toNat := by
    have hlt := w.isLt
    rw [toInt_setWidth, Int.bmod_eq_of_le (by omega) (by omega)]
  unfold addend operandInt sxm
  simp only [hkind, if_false]
  by_cases hone : sumKind op = 1
  · simp [hone, hunsigned]
  · cases bitSet s.st1 St1.sxm with
    | false => simp [hone, hunsigned]
    | true => simp [hone, toInt_signExtend_of_le (show 16 ≤ 64 by omega)]

theorem operandInt_bounds (op : Word) (s : Cpu) (w : Word) :
    -2 ^ 16 < operandInt op s w ∧ operandInt op s w < 2 ^ 16 := by
  have hlow := le_toInt w
  have hhigh := toInt_lt (x := w)
  have hlt := w.isLt
  unfold operandInt
  split <;> omega

theorem toInt_carryAcc (b : Bool) : (carryAcc b).toInt = b.toNat := by cases b <;> rfl

/-- The 40 bits hold the exact sum of an accumulator in the range. -/
theorem toInt_sumOf (hkind : sumKind op ≠ 2) (c : Ctx) (s : Cpu) {acc : Acc}
    (hacc : min32 ≤ acc.toInt ∧ acc.toInt ≤ max32) :
    (sumOf (bitSet op 11) acc (addend op s (smemOf op c s)) (carriesIn op s)).toInt =
      acc.toInt + (sumSeen c op s).2 := by
  obtain ⟨hlow, hhigh⟩ := operandInt_bounds op s (smemOf op c s)
  have hcin := Bool.toNat_le (carriesIn op s)
  have hadd := toInt_addend hkind s (smemOf op c s)
  obtain ⟨hmin, hmax⟩ := hacc
  unfold min32 at hmin
  unfold max32 at hmax
  rw [sumOf, toInt_sext40_bmod, sumSeen]
  cases bitSet op 11 with
  | false =>
    simp only [Bool.false_eq_true, if_false]
    rw [toInt_add, toInt_add, hadd, toInt_carryAcc,
      Int.bmod_eq_of_le (n := acc.toInt + _) (by omega) (by omega),
      Int.bmod_eq_of_le (m := 2 ^ 64) (by omega) (by omega),
      Int.bmod_eq_of_le (by omega) (by omega)]
    omega
  | true =>
    simp only [if_true]
    rw [toInt_sub, toInt_sub, hadd, toInt_carryAcc,
      Int.bmod_eq_of_le (n := acc.toInt - _) (by omega) (by omega),
      Int.bmod_eq_of_le (m := 2 ^ 64) (by omega) (by omega),
      Int.bmod_eq_of_le (by omega) (by omega)]
    omega

/-- The accumulators and their flags. -/
def abstract (s : Cpu) : Clamped Bool where
  value isB := (s.acc isB).toInt
  flag isB := bitSet s.st0 (ovBit isB)

/-- Overflow mode, with both accumulators in the signed 32-bit range. -/
structure Saturates (s : Cpu) : Prop where
  ovm : bitSet s.st1 St1.ovm = true
  c16 : bitSet s.st1 St1.c16 = false
  range : (abstract s).InRange min32 max32

variable {s : Cpu}

theorem abstract_runOp (hop : IsSum op) (c : Ctx) (hs : Saturates s) :
    abstract (runOp c op s) = (add min32 max32 (abstract s) (sumSeen c op s)).1 := by
  have hsum := execOp_sum hop.1 c s
  generalize hu : (execOp op c s).2 = u at hsum
  have hovm : bitSet u.st1 St1.ovm := by rw [hsum.st1, hs.ovm]
  have hc16 : bitSet u.st1 St1.c16 = false := by rw [hsum.st1, hs.c16]
  have hflag : ∀ isB, bitSet u.st0 (ovBit isB) = bitSet s.st0 (ovBit isB) := by
    intro isB
    cases isB <;> exact hsum.flag _ (by decide) (by decide)
  -- every accumulator of `u` holds the exact sum, or what it held before
  have hexact : ∀ isB, Canon (u.acc isB) ∧ (u.acc isB).toInt =
      if isB = dstB op then (s.acc isB).toInt + (sumSeen c op s).2 else (s.acc isB).toInt := by
    intro isB
    by_cases hdst : isB = dstB op
    · subst hdst
      rw [if_pos rfl, hsum.acc, toInt_sumOf hop.2 c s (hs.range _)]
      exact ⟨canon_sext40 _, rfl⟩
    · have hother : isB = !dstB op := by
        cases isB <;> cases hd : dstB op <;> simp_all
      have hrange := hs.range isB
      rw [if_neg hdst, hother, hsum.other, ← hother]
      refine ⟨canon_iff_toInt.mpr ?_, rfl⟩
      unfold min32 max32 abstract at hrange
      dsimp only at hrange
      omega
  have hval : ∀ isB, ((overflowPass s u).acc isB).toInt = clamp min32 max32 (u.acc isB).toInt := by
    intro isB
    rw [acc_overflowPass]
    exact toInt_settle hovm hc16 (hexact isB).1 (hs.range isB)
  have hov : ∀ isB, bitSet (overflowPass s u).st0 (ovBit isB) = (bitSet s.st0 (ovBit isB) ||
      decide (clamp min32 max32 (u.acc isB).toInt ≠ (u.acc isB).toInt)) := by
    intro isB
    rw [flag_of_inRange isB hc16 (hexact isB).1 (hs.range isB), hflag]
  have hkeep : ∀ isB, clamp min32 max32 (s.acc isB).toInt = (s.acc isB).toInt := fun isB =>
    (clamp_eq_self (by decide)).mpr (hs.range isB)
  have hreg : (sumSeen c op s).1 = dstB op := rfl
  rw [runOp, hu]
  ext isB
  · change ((overflowPass s u).acc isB).toInt = _
    simp only [hval, (hexact isB).2, add, Function.update_apply, hreg]
    split
    · rename_i hdst
      rw [hdst]
      rfl
    · exact hkeep isB
  · change bitSet (overflowPass s u).st0 (ovBit isB) = _
    simp only [hov, (hexact isB).2, add, Function.update_apply, hreg]
    split
    · rename_i hdst
      rw [hdst]
      rfl
    · simp only [hkeep, ne_eq, not_true_eq_false, decide_false, Bool.or_false]
      rfl

theorem saturates_runOp (hop : IsSum op) (c : Ctx) (hs : Saturates s) :
    Saturates (runOp c op s) := by
  have hst1 : (runOp c op s).st1 = s.st1 := (st1_runOp c op s).trans (execOp_sum hop.1 c s).st1
  refine ⟨by rw [hst1, hs.ovm], by rw [hst1, hs.c16], ?_⟩
  rw [abstract_runOp hop c hs]
  exact inRange_add (by decide) hs.range _

/-! ### Sequences -/

/-- The instructions run one after the other, with what each adds. -/
def sums : Machine Cpu (Ctx × Word) (Bool × Int) := sequence sumSeen

/-- The core follows the saturating accumulators, fed with the same addends. -/
theorem abstract_final (hs : Saturates s) {xs : List (Ctx × Word)} (hops : ∀ x ∈ xs, IsSum x.2) :
    abstract (sums.final s xs) =
      (machine min32 max32).final (abstract s) (sums.trace s xs) := by
  induction xs generalizing s with
  | nil => rfl
  | cons x xs ih =>
    rw [List.forall_mem_cons] at hops
    have hstep := abstract_runOp hops.1 x.1 hs
    rw [Machine.final_cons, Machine.trace_cons]
    refine (ih (saturates_runOp hops.1 x.1 hs) hops.2).trans ?_
    rw [show (sums.step s x).1 = runOp x.1 x.2 s from rfl, hstep]
    rfl

theorem saturates_final (hs : Saturates s) {xs : List (Ctx × Word)}
    (hops : ∀ x ∈ xs, IsSum x.2) : Saturates (sums.final s xs) := by
  induction xs generalizing s with
  | nil => exact hs
  | cons x xs ih =>
    rw [List.forall_mem_cons] at hops
    exact ih (saturates_runOp hops.1 x.1 hs) hops.2

/-- Sums in overflow mode, from accumulators in the signed 32-bit range. Every instruction leaves the
exact result, clamped, so that the whole is exact saturating arithmetic on the addends; both
accumulators stay in the range; a flag is set at the end if it was set before or its accumulator was
clamped on the way. -/
theorem sums_saturate (s : Cpu) (xs : List (Ctx × Word)) (hops : ∀ x ∈ xs, IsSum x.2)
    (hovm : bitSet s.st1 St1.ovm = true) (hc16 : bitSet s.st1 St1.c16 = false)
    (hrange : ∀ isB, min32 ≤ (s.acc isB).toInt ∧ (s.acc isB).toInt ≤ max32) :
    (∀ ys x zs, xs = ys ++ x :: zs →
      ((runOp x.1 x.2 (sums.final s ys)).acc (dstB x.2)).toInt =
        clamp min32 max32 (((sums.final s ys).acc (dstB x.2)).toInt +
          (sumSeen x.1 x.2 (sums.final s ys)).2)) ∧
    abstract (sums.final s xs) =
      (machine min32 max32).final (abstract s) (sums.trace s xs) ∧
    (∀ isB, min32 ≤ ((sums.final s xs).acc isB).toInt ∧
      ((sums.final s xs).acc isB).toInt ≤ max32) ∧
    ∀ isB, bitSet (sums.final s xs).st0 (ovBit isB) = (bitSet s.st0 (ovBit isB) ||
      decide (isB ∈ (machine min32 max32).trace (abstract s) (sums.trace s xs))) := by
  have hs : Saturates s := ⟨hovm, hc16, hrange⟩
  have hfinal := abstract_final hs hops
  refine ⟨?_, hfinal, (saturates_final hs hops).range, fun isB => ?_⟩
  · rintro ys x zs rfl
    rw [List.forall_mem_append, List.forall_mem_cons] at hops
    obtain ⟨hys, hx, -⟩ := hops
    have hstep := abstract_runOp hx x.1 (saturates_final hs hys)
    have hvalue := congrFun (congrArg Clamped.value hstep) (dstB x.2)
    exact hvalue.trans (Function.update_self _ _ _)
  · exact (congrFun (congrArg Clamped.flag hfinal) isB).trans (flag_final _ _ _)

def nearMax : Cpu :=
  { operandInT 0x7FFF with a := 0x7FFFFFF0, st1 := setBit (boot []).st1 St1.ovm }

/-- ADD *AR0,A clamps A and leaves its flag; SUBB *AR0,A goes on from 2³¹ − 1. -/
theorem sums_saturate_nearMax :
    abstract (sums.final nearMax [(.boot, 0x0080), (.boot, 0x0E80)]) =
      (machine min32 max32).final (abstract nearMax)
        (sums.trace nearMax [(.boot, 0x0080), (.boot, 0x0E80)]) ∧
    ((sums.final nearMax [(.boot, 0x0080), (.boot, 0x0E80)]).acc false).toInt =
      max32 - 0x7FFF - 1 :=
  ⟨(sums_saturate nearMax [(.boot, 0x0080), (.boot, 0x0E80)] (by decide +kernel)
    (by decide +kernel) (by decide +kernel) (by decide +kernel)).2.1, by decide +kernel⟩

end Qosmo.C54x
