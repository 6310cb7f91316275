import Qosmo.C54x.Load
import Qosmo.Lib.Ripple

/-!
# Qosmo.C54x.Sum

ADD, ADDS, ADDC, SUB, SUBS and SUBB with a memory operand, and chains of ADDC or SUBB through C.

C is computed by `c54x_carry_add40` or `c54x_carry_sub40` from the accumulator and the operand, to
which the carry in has been added before. The sum of the two is reduced to 40 bits: an operand of
−1 with a carry in is 0, and the carry it makes is lost. This is the only way a chain can go wrong
(`carry_exact_iff`).
-/

namespace Qosmo.C54x

open BitVec Prog

/-! ### The instructions -/

/-- Bits 10 and 9: 0 is ADD or SUB, 1 unsigned, 2 with a shift by T, 3 with the carry. -/
def sumKind (op : Word) : Nat := ((op >>> 9) &&& 3).toNat

def addend (op : Word) (s : Cpu) (val : Word) : Acc :=
  let v := if sumKind op = 1 then val.setWidth 64 else sxm s val
  if sumKind op = 2 then shiftAcc v (tShift s) else v

/-- What comes in with the operand: the carry, or for a subtraction the borrow. -/
def carriesIn (op : Word) (s : Cpu) : Bool :=
  decide (sumKind op = 3) && (bitSet s.st0 St0.c != bitSet op 11)

def carryAcc (b : Bool) : Acc := if b then 1 else 0

/-- The accumulator and the carry the code computes from an accumulator, an operand and a carry. -/
def sumOf (sub : Bool) (acc v : Acc) (cin : Bool) : Acc :=
  sext40 (if sub then acc - v - carryAcc cin else acc + v + carryAcc cin)
def carryOf (sub : Bool) (acc v : Acc) (cin : Bool) : Bool :=
  if sub then decide ((v + carryAcc cin) &&& mask40 ≤ acc &&& mask40)
  else bitSet ((acc &&& mask40) + ((v + carryAcc cin) &&& mask40)) 40

/-- What ADD or SUB with the operand `v` leaves: the sum in the destination and its carry in C. -/
structure Summed (op : Word) (v : Acc) (s u : Cpu) : Prop where
  acc : u.acc (dstB op) = sumOf (bitSet op 11) (s.acc (dstB op)) v (carriesIn op s)
  carry : bitSet u.st0 St0.c = carryOf (bitSet op 11) (s.acc (dstB op)) v (carriesIn op s)
  other : u.acc (!dstB op) = s.acc (!dstB op)
  flag : ∀ k < 13, k ≠ St0.c → bitSet u.st0 k = bitSet s.st0 k
  st1 : u.st1 = s.st1

theorem summed_store {op : Word} {v r : Acc} {s u : Cpu} {cout : Bool} (hu : Loaded s u) (c : Ctx)
    (hr : r = sumOf (bitSet op 11) (s.acc (dstB op)) v (carriesIn op s))
    (hcout : cout = carryOf (bitSet op 11) (s.acc (dstB op)) v (carriesIn op s)) :
    Summed op v s (setAcc (dstB op) r c (putSt0 St0.c cout c u).2).2 := by
  have hst0 : ∀ (isB : Bool) (x : Acc) (w : Cpu), (setAcc isB x c w).2.st0 = w.st0 := by
    intro isB x w
    cases isB <;> rfl
  refine ⟨(acc_setAcc _ _ _ _).trans hr, ?_, ?_, ?_, ?_⟩
  · rw [hst0, ← hcout]
    exact bitSet_putBit_self _ _ (by decide)
  · rw [← hu.acc]
    cases dstB op <;> rfl
  · intro k hk hne
    rw [hst0, ← hu.flag k hk]
    exact bitSet_putBit_ne _ _ hne
  · rw [← hu.st1]
    cases dstB op <;> rfl

theorem execOp_sum {op : Word} (hop : op &&& 0xF000 = 0) (c : Ctx) (s : Cpu) :
    Summed op (addend op s (smemOf op c s)) s (execOp op c s).2 := by
  have hdecode : decode op = .plain execAddSub := decode_of_first hop rfl rfl
  obtain ⟨u, hu, heq⟩ := execOp_load hdecode rfl c s
  have hadd : addend op u (smemOf op c s) = addend op s (smemOf op c s) := by
    simp only [addend, tShift, hu.sxm, hu.t]
  have hcin : carriesIn op u = carriesIn op s := by
    rw [carriesIn, carriesIn, hu.flag _ (by decide)]
  have hcarry : carryAcc (carriesIn op s) =
      if sumKind op = 3 ∧ (bitSet u.st0 St0.c != bitSet op 11) then 1 else 0 := by
    rw [← hcin]
    simp [carryAcc, carriesIn]
  rw [heq, ← hadd]
  cases hsub : bitSet op 11 with
  | true | false =>
    rw [hsub] at hcarry
    refine summed_store hu c ?_ ?_
    · rw [hsub, sumOf, ← hu.acc, hcarry]
      simp only [Bool.bne_true, Bool.bne_false]
      rfl
    · rw [hsub, carryOf, ← hu.acc, hcarry]
      simp only [Bool.bne_true, Bool.bne_false]
      rfl

/-! ### 40-bit digits -/

/-- The 40 bits of an accumulator, as a number. -/
def digit (v : Acc) : Nat := v.toNat % 2 ^ 40

theorem setWidth_sext40 (v : Acc) : (sext40 v).setWidth 40 = v.setWidth 40 := by
  apply eq_of_getLsbD_eq
  intro i hi
  have hsext : (sext40 v).getLsbD i = (v.setWidth 40).getLsbD i := by
    rw [sext40, getLsbD_signExtend]
    simp [hi, show i < 64 by omega]
  rw [getLsbD_setWidth, hsext]
  simp [hi]

theorem digit_sext40 (v : Acc) : digit (sext40 v) = digit v := by
  have hnat := congrArg BitVec.toNat (setWidth_sext40 v)
  rwa [toNat_setWidth, toNat_setWidth] at hnat

theorem toNat_carryAcc (b : Bool) : (carryAcc b).toNat = b.toNat := by cases b <;> rfl

/-- The code adds the carry to the operand before it looks for a carry: this operand is 0 then. -/
def carryLost (v : Acc) (cin : Bool) : Bool := cin && digit v == 2 ^ 40 - 1

theorem digit_add_carry (v : Acc) (cin : Bool) :
    digit (v + carryAcc cin) + 2 ^ 40 * (carryLost v cin).toNat = digit v + cin.toNat := by
  have hlt := v.isLt
  have hsum : digit (v + carryAcc cin) = (v.toNat + cin.toNat) % 2 ^ 64 % 2 ^ 40 := by
    rw [digit, toNat_add, toNat_carryAcc]
  rw [hsum]
  unfold carryLost digit
  cases cin with
  | false =>
    simp only [Bool.toNat_false, Bool.false_and]
    omega
  | true =>
    by_cases hfull : v.toNat % 2 ^ 40 = 2 ^ 40 - 1
    · simp only [hfull, beq_self_eq_true, Bool.and_true, Bool.toNat_true]
      omega
    · simp only [beq_eq_false_iff_ne.mpr hfull, Bool.and_false, Bool.toNat_true, Bool.toNat_false]
      omega

theorem digit_lt (v : Acc) : digit v < 2 ^ 40 := Nat.mod_lt _ (by decide)

theorem digit_add (x y : Acc) : digit (x + y) = (digit x + digit y) % 2 ^ 40 := by
  have hx := x.isLt
  have hy := y.isLt
  simp only [digit, toNat_add]
  omega

theorem digit_sub (x y : Acc) : digit (x - y) = (digit x + 2 ^ 40 - digit y) % 2 ^ 40 := by
  have hx := x.isLt
  have hy := y.isLt
  simp only [digit, toNat_sub]
  omega

section

variable (acc v : Acc) (cin : Bool)

/-- The carry helper on two operands of 40 bits. -/
theorem carryOf_add : carryOf false acc v cin =
    decide (2 ^ 40 ≤ digit acc + digit (v + carryAcc cin)) := by
  have hacc := digit_lt acc
  have hv := digit_lt (v + carryAcc cin)
  have hsum : ((acc &&& mask40) + ((v + carryAcc cin) &&& mask40)).toNat =
      digit acc + digit (v + carryAcc cin) := by
    rw [toNat_add, toNat_and_mask40, toNat_and_mask40, digit, digit]
    omega
  rw [carryOf, if_neg Bool.false_ne_true, bitSet, BitVec.getLsbD, hsum,
    Nat.testBit_eq_decide_div_mod_eq]
  congr 1
  rw [eq_iff_iff]
  omega

theorem carryOf_sub : carryOf true acc v cin = decide (digit (v + carryAcc cin) ≤ digit acc) := by
  rw [carryOf, if_pos rfl]
  congr 1
  rw [le_def, toNat_and_mask40, toNat_and_mask40]
  rfl

theorem balanced_add :
    digit (sumOf false acc v cin) + 2 ^ 40 * (carryOf false acc v cin).toNat +
      2 ^ 40 * (carryLost v cin).toNat = digit acc + digit v + cin.toNat := by
  have hadd := digit_add_carry v cin
  have hacc := digit_lt acc
  have hv := digit_lt (v + carryAcc cin)
  have hsum : digit (sumOf false acc v cin) =
      (digit acc + digit (v + carryAcc cin)) % 2 ^ 40 := by
    rw [sumOf, if_neg Bool.false_ne_true, digit_sext40, add_assoc, digit_add]
  rw [hsum, carryOf_add]
  by_cases hout : 2 ^ 40 ≤ digit acc + digit (v + carryAcc cin)
  · rw [decide_eq_true hout, Bool.toNat_true]
    omega
  · rw [decide_eq_false hout, Bool.toNat_false]
    omega

/-- What a subtraction accounts for, with the borrow for the carry. -/
theorem balanced_sub :
    digit acc + 2 ^ 40 * (!carryOf true acc v cin).toNat + 2 ^ 40 * (carryLost v cin).toNat =
      digit (sumOf true acc v cin) + digit v + cin.toNat := by
  have hadd := digit_add_carry v cin
  have hacc := digit_lt acc
  have hv := digit_lt (v + carryAcc cin)
  have hsum : digit (sumOf true acc v cin) =
      (digit acc + 2 ^ 40 - digit (v + carryAcc cin)) % 2 ^ 40 := by
    rw [sumOf, if_pos rfl, digit_sext40, sub_sub, digit_sub]
  rw [hsum, carryOf_sub]
  by_cases hfits : digit (v + carryAcc cin) ≤ digit acc
  · rw [decide_eq_true hfits, Bool.not_true, Bool.toNat_false]
    omega
  · rw [decide_eq_false hfits, Bool.not_false, Bool.toNat_true]
    omega

end

/-! ### ADDC and SUBB -/

/-- ADDC and SUBB with destination bit and addressing mode `f`. -/
def addc (f : BitVec 9) : Word := withField 0x0600 f
def subb (f : BitVec 9) : Word := withField 0x0E00 f

/-- One instruction of a chain: where it is executed and in which state. -/
structure Link where
  field : BitVec 9
  ctx : Ctx
  cpu : Cpu

namespace Link

variable (sub : Bool) (x : Link)

def op : Word := if sub then subb x.field else addc x.field

/-- The state the instruction leaves. -/
def after : Cpu := (execOp (x.op sub) x.ctx x.cpu).2

/-- C in front of the instruction and behind it. -/
def carryIn : Bool := bitSet x.cpu.st0 St0.c
def carryOut : Bool := bitSet (x.after sub).st0 St0.c

/-- The memory operand, and the three numbers of 40 bits. -/
def word : Word := smemOf (x.op sub) x.ctx x.cpu
def operand : Nat := digit (sxm x.cpu (x.word sub))
def acc : Nat := digit (x.cpu.acc (bitSet x.field 8))
def result : Nat := digit ((x.after sub).acc (bitSet x.field 8))

/-- C is the carry out of the addition, or the absence of a borrow in the subtraction, of all
40 bits and the carry in. -/
def CarryExact : Prop := x.carryOut sub = if sub
  then decide (x.operand sub + (!x.carryIn).toNat ≤ x.acc)
  else decide (2 ^ 40 ≤ x.acc + x.operand sub + x.carryIn.toNat)

/-- The operand is −1 and a carry, or a borrow, comes in. -/
def LosesCarry : Prop :=
  bitSet x.cpu.st1 St1.sxm = true ∧ x.word sub = 0xFFFF ∧ x.carryIn = !sub

end Link

theorem digit_eq_emod (v : Acc) : (digit v : Int) = v.toInt % 2 ^ 40 := by
  have hlt := v.isLt
  rw [digit, toInt_eq_toNat_cond]
  split <;> omega

theorem digit_sxm_eq (s : Cpu) (w : Word) :
    digit (sxm s w) = 2 ^ 40 - 1 ↔ bitSet s.st1 St1.sxm ∧ w = 0xFFFF := by
  unfold sxm
  cases bitSet s.st1 St1.sxm with
  | false =>
    have hw := w.isLt
    simp only [Bool.false_eq_true, if_false, false_and, iff_false, digit, toNat_setWidth]
    omega
  | true =>
    simp only [if_true, true_and]
    have hdigit := digit_eq_emod (w.signExtend 64)
    rw [toInt_signExtend_of_le (by omega)] at hdigit
    have hlow := le_toInt w
    have hhigh := toInt_lt (x := w)
    have hminus : w = 0xFFFF ↔ w.toInt = -1 := by
      rw [← toInt_inj]
      exact Iff.rfl
    rw [hminus]
    omega

namespace Link

variable (sub : Bool) (x : Link)

theorem op_fields : x.op sub &&& 0xF000 = 0 ∧ sumKind (x.op sub) = 3 ∧ bitSet (x.op sub) 11 = sub ∧
    dstB (x.op sub) = bitSet x.field 8 := by
  cases sub with
  | false | true =>
    refine ⟨and_of_and (withField_and rfl x.field) rfl, ?_, bitSet_withField _ _ (by omega),
      dstB_withField rfl x.field⟩
    rw [sumKind]
    simp only [op, addc, subb, ushiftRight_withField, if_true, Bool.false_eq_true, if_false]
    rfl

/-- What the instruction computes, in its own terms. -/
theorem summed : x.carryOut sub = carryOf sub (x.cpu.acc (bitSet x.field 8))
      (sxm x.cpu (x.word sub)) (x.carryIn != sub) ∧
    x.result sub = digit (sumOf sub (x.cpu.acc (bitSet x.field 8))
      (sxm x.cpu (x.word sub)) (x.carryIn != sub)) := by
  obtain ⟨hop, hkind, hsub, hdst⟩ := x.op_fields sub
  have hadd : addend (x.op sub) x.cpu (x.word sub) = sxm x.cpu (x.word sub) := by
    simp [addend, hkind]
  have hcin : carriesIn (x.op sub) x.cpu = (x.carryIn != sub) := by
    rw [carriesIn, hkind, hsub]
    rfl
  have hsum := execOp_sum hop x.ctx x.cpu
  have hcarry := hsum.carry
  have hacc := hsum.acc
  rw [hsub, hdst, hcin] at hcarry hacc
  rw [← hadd]
  exact ⟨hcarry, congrArg digit hacc⟩

/-- The digit of the chain: of the sum, or of the minuend. -/
def toDigit : Ripple.Digit where
  sum := if sub then x.acc else x.result sub
  left := if sub then x.result sub else x.acc
  right := x.operand sub
  carryIn := x.carryIn != sub
  carryOut := x.carryOut sub != sub
  lost := carryLost (sxm x.cpu (x.word sub)) (x.carryIn != sub)

theorem balanced : (x.toDigit sub).Balanced (2 ^ 40) := by
  obtain ⟨hcarry, hresult⟩ := x.summed sub
  unfold Ripple.Digit.Balanced toDigit
  rw [hcarry, hresult]
  cases sub with
  | false => simpa [acc, operand] using balanced_add (x.cpu.acc (bitSet x.field 8)) _ x.carryIn
  | true => simpa [acc, operand] using balanced_sub (x.cpu.acc (bitSet x.field 8)) _ (!x.carryIn)

theorem lost_iff : (x.toDigit sub).lost ↔ x.LosesCarry sub := by
  have hfull := digit_sxm_eq x.cpu (x.word sub)
  simp only [toDigit, carryLost, Bool.and_eq_true, beq_iff_eq, hfull, LosesCarry]
  cases sub with
  | false =>
    simp only [Bool.bne_false, Bool.not_false]
    tauto
  | true =>
    simp only [Bool.bne_true, Bool.not_true, Bool.not_eq_true']
    tauto

/-- C is right if and only if no carry is lost. -/
theorem carryExact_iff : x.CarryExact sub ↔ ¬ x.LosesCarry sub := by
  obtain ⟨hcarry, -⟩ := x.summed sub
  have hadd := digit_add_carry (sxm x.cpu (x.word sub)) (x.carryIn != sub)
  have hacc := digit_lt (x.cpu.acc (bitSet x.field 8))
  have hv := digit_lt (sxm x.cpu (x.word sub))
  have hcin := Bool.toNat_le (x.carryIn != sub)
  have hlost := Bool.toNat_le (carryLost (sxm x.cpu (x.word sub)) (x.carryIn != sub))
  have hzero : ∀ b : Bool, b = false ↔ b.toNat = 0 := by decide
  rw [CarryExact, hcarry, ← x.lost_iff sub, Bool.not_eq_true, hzero]
  unfold acc operand toDigit
  cases sub with
  | false =>
    rw [carryOf_add, if_neg Bool.false_ne_true, decide_eq_decide]
    simp only [Bool.bne_false] at hadd hcin hlost ⊢
    omega
  | true =>
    rw [carryOf_sub, if_pos rfl, decide_eq_decide]
    simp only [Bool.bne_true] at hadd hcin hlost ⊢
    omega

end Link

/-! ### Chains -/

/-- A chain of ADDC, or of SUBB: whatever is executed in between, C is carried from one
instruction to the next. -/
def Chained (sub : Bool) : Bool → List Link → Bool → Prop
  | c, [], c' => c = c'
  | c, x :: xs, c' => x.carryIn = c ∧ Chained sub (x.carryOut sub) xs c'

/-- The number of which `f` gives the digits, the lowest first. -/
def number (f : Link → Nat) (xs : List Link) : Nat := Nat.ofDigits (2 ^ 40) (xs.map f)

/-- The multi-word sum, or difference, is exact, with C for its last carry. -/
def ExactChain (sub : Bool) (c : Bool) (xs : List Link) (c' : Bool) : Prop :=
  if sub then
    number Link.acc xs + (2 ^ 40) ^ xs.length * (!c').toNat =
      number (Link.result sub) xs + number (Link.operand sub) xs + (!c).toNat
  else
    number (Link.result sub) xs + (2 ^ 40) ^ xs.length * c'.toNat =
      number Link.acc xs + number (Link.operand sub) xs + c.toNat

theorem ripple_of_chained {sub c c' : Bool} {xs : List Link} (h : Chained sub c xs c') :
    Ripple.Chain (2 ^ 40) (c != sub) (xs.map (Link.toDigit sub)) (c' != sub) := by
  induction xs generalizing c with
  | nil => exact congrArg (· != sub) h
  | cons x xs ih =>
    obtain ⟨rfl, hrest⟩ := h
    exact ⟨x.balanced sub, rfl, ih hrest⟩

theorem value_map_toDigit (sub : Bool) (f : Ripple.Digit → Nat) (xs : List Link) :
    Ripple.value (2 ^ 40) f (xs.map (Link.toDigit sub)) =
      number (fun x => f (x.toDigit sub)) xs := by
  rw [Ripple.value, number, List.map_map]
  rfl

theorem exactChain_iff {sub c c' : Bool} {xs : List Link} (h : Chained sub c xs c') :
    ExactChain sub c xs c' ↔ ∀ x ∈ xs, ¬ x.LosesCarry sub := by
  have hexact := (ripple_of_chained h).exact_iff (by decide)
  rw [value_map_toDigit, value_map_toDigit, value_map_toDigit, List.length_map] at hexact
  have hlost : (∀ d ∈ xs.map (Link.toDigit sub), d.lost = false) ↔
      ∀ x ∈ xs, ¬ x.LosesCarry sub := by
    rw [List.forall_mem_map]
    refine forall₂_congr fun x _ => ?_
    rw [← x.lost_iff sub, Bool.not_eq_true]
  rw [← hlost, ← hexact]
  cases sub with
  | false => simp only [ExactChain, Link.toDigit, Bool.false_eq_true, if_false, Bool.bne_false]
  | true => simp only [ExactChain, Link.toDigit, if_true, Bool.bne_true]

instance (sub : Bool) (x : Link) : Decidable (x.CarryExact sub) := inferInstanceAs (Decidable (_ = _))
instance (sub : Bool) (x : Link) : Decidable (x.LosesCarry sub) :=
  inferInstanceAs (Decidable (_ ∧ _ ∧ _))

/-- C behind ADDC and SUBB is the carry of the whole operation, and a number of several words
added or subtracted through C comes out exactly, if and only if no carry or borrow comes in with
an operand of −1. -/
theorem carry_exact_iff (sub : Bool) :
    (∀ x : Link, x.CarryExact sub ↔ ¬ x.LosesCarry sub) ∧
    ∀ (xs : List Link) (c c' : Bool), Chained sub c xs c' →
      (ExactChain sub c xs c' ↔ ∀ x ∈ xs, ¬ x.LosesCarry sub) :=
  ⟨fun x => x.carryExact_iff sub, fun _ _ _ h => exactChain_iff h⟩

/-- ADDC or SUBB *AR0,A with the operand `w` and C set or clear; A is 0 and SXM is set. -/
def linkOf (w : Word) (carry : Bool) : Link where
  field := throughAr0
  ctx := .boot
  cpu := { operandInT w with st0 := putBit (boot []).st0 St0.c carry }

/-- 2⁴⁰ · 5 + 3 added to 0 with a carry: 2⁴⁰ · 5 + 4. -/
theorem carry_exact_two_words :
    ExactChain false true [linkOf 3 true, linkOf 5 false] false :=
  ((carry_exact_iff false).2 [linkOf 3 true, linkOf 5 false] true false
    ⟨by decide +kernel, by decide +kernel,
      show (linkOf 5 false).carryOut false = false by decide +kernel⟩).mpr (by decide +kernel)

/-- −1 added to 0 with a carry leaves C clear; −1 subtracted from 0 with a borrow leaves C set, as
if there were none. -/
theorem carry_of_minus_one_lost :
    (linkOf 0xFFFF true).carryOut false = false ∧ ¬ (linkOf 0xFFFF true).CarryExact false ∧
    (linkOf 0xFFFF false).carryOut true = true ∧ ¬ (linkOf 0xFFFF false).CarryExact true := by
  decide +kernel

end Qosmo.C54x
