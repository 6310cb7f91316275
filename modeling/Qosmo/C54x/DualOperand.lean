import Qosmo.C54x.Pointer
import Qosmo.C54x.Product

/-!
# Qosmo.C54x.DualOperand

Instructions with two memory operands, both through one of AR2..AR5.

ADD, MAC and MAS read the two words and step the registers behind that, X's before Y's. SUB is made
of the address resolvers: it takes the address of Y from a register that X may have stepped already,
and reads both words behind both steps. `dual_sums_iff` says when this is the same.

MAC and MAS compute on all 64 bits of the accumulator and keep 40, so that one undoes the other. Of
their eight opcodes one is decoded as something else: 0xBA, MAS from B into A, loads a register
(`mas_undoes_mac_iff`).
-/

namespace Qosmo.C54x

open BitVec Prog

/-! ### Stepping the registers -/

def stepped (n : BitVec 3) (mod : Nat) (s : Cpu) : Word :=
  match mod with
  | 1 => s.ar n - 1
  | 2 => s.ar n + 1
  | 3 => circRef (s.ar n) (s.ar 0).toInt s.bk
  | _ => s.ar n

def stepAr (n : BitVec 3) (mod : Nat) (s : Cpu) : BitVec 3 → Word :=
  Function.update s.ar n (stepped n mod s)

/-- Behind the step of X, and of Y. -/
def stepX (op : Word) (s : Cpu) : Cpu := { s with ar := stepAr (xAr op) (xMod op) s }
def stepY (op : Word) (s : Cpu) : Cpu := { s with ar := stepAr (yAr op) (yMod op) s }

theorem parPostmod_eq (n : BitVec 3) (mod : Nat) (c : Ctx) (s : Cpu) :
    parPostmod n mod c s = ((), { s with ar := stepAr n mod s }) := by
  match mod with
  | 0 => simp [parPostmod, run_modify, stepAr, stepped]
  | 1 => rfl
  | 2 => rfl
  | 3 => rfl
  | mod + 4 => simp [parPostmod, run_modify, stepAr, stepped]

section

variable (op : Word) (c : Ctx) (s : Cpu)

theorem postXY_eq : postXY op c s = ((), stepY op (stepX op s)) := by
  rw [postXY, run_bind, parPostmod_eq, parPostmod_eq]
  rfl

theorem resolveXmem_eq : resolveXmem op c s = (s.ar (xAr op), stepX op s) := by
  have hmod : ((op >>> 4 >>> 2) &&& 3).toNat = xMod op := by
    rw [← shiftRight_add]
    rfl
  rw [resolveXmem, resolveDual, run_get_bind, run_bind, parPostmod_eq, hmod]
  rfl

theorem resolveYmem_eq : resolveYmem op c s = (s.ar (yAr op), stepY op s) := by
  rw [resolveYmem, resolveDual, run_get_bind, run_bind, parPostmod_eq]
  rfl

end

/-- A step leaves its register if it is none, or circular and round to where it began. -/
theorem stepped_eq_iff {n : BitVec 3} {mod : Nat} (hmod : mod < 4) (s : Cpu) :
    stepped n mod s = s.ar n ↔
      mod = 0 ∨ mod = 3 ∧ circRef (s.ar n) (s.ar 0).toInt s.bk = s.ar n := by
  match mod with
  | 0 => simp [stepped]
  | 1 => simp [stepped]
  | 2 => simp [stepped]
  | 3 => simp [stepped]

/-- With other auxiliary registers memory reads the same, but for those registers. -/
theorem dataRead_ar_iff (s : Cpu) (ar : BitVec 3 → Word) (a : Word) :
    dataRead { s with ar := ar } a = dataRead s a ↔ ∀ n, a = (Mmr.ar n).addr → ar n = s.ar n := by
  refine (dataRead_eq_iff (s := s) (t := { s with ar := ar }) ⟨rfl, rfl, rfl, rfl⟩ a).trans
    ⟨fun h n hn => h (.ar n) hn, fun h r hr => ?_⟩
  cases r with
  | ar n => exact h n hr
  | _ => rfl

/-! ### The fields -/

/-- The operands are in the low byte of the opcode. -/
structure SameFields (op op' : Word) : Prop where
  xAr : xAr op = xAr op'
  yAr : yAr op = yAr op'
  xMod : xMod op = xMod op'
  yMod : yMod op = yMod op'

variable {op op' : Word}

theorem shifted_and_congr {mask : Word} (h : op.setWidth 8 = op'.setWidth 8) {k : Nat}
    (hmask : ∀ i < 16, mask.getLsbD i → k + i < 8) :
    (op >>> k) &&& mask = (op' >>> k) &&& mask := by
  apply eq_of_getLsbD_eq
  intro i hi
  rw [getLsbD_and, getLsbD_and, getLsbD_ushiftRight,
    getLsbD_ushiftRight]
  cases hbit : mask.getLsbD i with
  | true =>
    have hlow := congrArg (·.getLsbD (k + i)) h
    simp only [getLsbD_setWidth, hmask i hi hbit, decide_true, Bool.true_and] at hlow
    rw [hlow]
  | false => rw [Bool.and_false, Bool.and_false]

theorem sameFields (h : op.setWidth 8 = op'.setWidth 8) : SameFields op op' where
  xAr := by rw [xAr, xAr, shifted_and_congr h (by decide)]
  yAr := by
    have hlow : op &&& 3 = op' &&& 3 := shifted_and_congr (k := 0) h (by decide)
    rw [yAr, yAr, hlow]
  xMod := by rw [xMod, xMod, shifted_and_congr h (by decide)]
  yMod := by rw [yMod, yMod, shifted_and_congr h (by decide)]

theorem SameFields.stepXY (h : SameFields op op') (s : Cpu) :
    stepY op (stepX op s) = stepY op' (stepX op' s) := by
  rw [stepY, stepX, stepY, stepX, h.xAr, h.yAr, h.xMod, h.yMod]

theorem xMod_lt (op : Word) : xMod op < 4 := by
  rw [xMod, toNat_and]
  exact Nat.lt_of_le_of_lt Nat.and_le_right (by decide)

/-! ### ADD and SUB -/

/-- ADD and SUB with destination bit and operand fields `f`. -/
def addXY (f : BitVec 9) : Word := withField 0xA000 f
def subXY (f : BitVec 9) : Word := withField 0xA200 f

theorem decode_addXY (f : BitVec 9) : decode (addXY f) = .plain execAddXY :=
  decode_of_first (withField_and (by decide) f) (by decide) rfl

theorem decode_subXY (f : BitVec 9) : decode (subXY f) = .plain execSubXY :=
  decode_of_first (withField_and (by decide) f) (by decide) rfl

theorem sameFields_subXY (f : BitVec 9) : SameFields (subXY f) (addXY f) := by
  apply sameFields
  rw [subXY, addXY, setWidth_withField (by decide), setWidth_withField (by decide)]

abbrev Operand := Word × Word

def held (op : Word) (s : Cpu) : Operand × Operand :=
  ((s.ar (xAr op), dataRead s (s.ar (xAr op))), (s.ar (yAr op), dataRead s (s.ar (yAr op))))

def addOperands (op : Word) : Exec (Operand × Operand) := do
  return held op (← get)

def subOperands (op : Word) : Exec (Operand × Operand) := do
  let xa ← resolveXmem op
  let ya ← resolveYmem op
  let x ← rd xa
  let y ← rd ya
  return ((xa, x), (ya, y))

theorem execAddXY_eq (op : Word) : execAddXY op = (do
    let (x, y) ← addOperands op
    setAcc (dstB op) (sext40 ((x.2.signExtend 64 + y.2.signExtend 64) <<< 16))
    postXY op
    done 1) := rfl

theorem execSubXY_eq (op : Word) : execSubXY op = (do
    let (x, y) ← subOperands op
    setAcc (dstB op) (sext40 ((x.2.signExtend 64 - y.2.signExtend 64) <<< 16))
    return 1) := rfl

theorem ar_setAcc (isB : Bool) (v : Acc) (c : Ctx) (s : Cpu) : (setAcc isB v c s).2.ar = s.ar := by
  cases isB <;> rfl

/-- Stepping does not look at the accumulators, and leaves them. -/
theorem stepXY_setAcc (op : Word) (isB : Bool) (v : Acc) (c : Ctx) (s : Cpu) :
    stepY op (stepX op (setAcc isB v c s).2) = (setAcc isB v c (stepY op (stepX op s))).2 := by
  cases isB <;> rfl

section

variable (op : Word) (c : Ctx) (s : Cpu)

theorem execAddXY_snd :
    (execAddXY op c s).2 = (setAcc (dstB op) (sext40 (((held op s).1.2.signExtend 64 +
      (held op s).2.2.signExtend 64) <<< 16)) c (stepY op (stepX op s))).2 := by
  rw [← stepXY_setAcc, execAddXY_eq, run_bind]
  dsimp only
  rw [run_bind, run_bind, postXY_eq]
  rfl

theorem subOperands_snd : (subOperands op c s).2 = stepY op (stepX op s) := by
  rw [subOperands, run_bind, resolveXmem_eq, run_bind, resolveYmem_eq]
  rfl

theorem execSubXY_snd :
    (execSubXY op c s).2 = (setAcc (dstB op) (sext40 (((subOperands op c s).1.1.2.signExtend 64 -
      (subOperands op c s).1.2.2.signExtend 64) <<< 16)) c (stepY op (stepX op s))).2 := by
  rw [execSubXY_eq, run_bind, ← subOperands_snd op c s]
  rfl

/-- The operands of SUB are those held if X's step leaves the register that Y is read through, and no
operand is a register that the steps change. -/
theorem subOperands_iff :
    (subOperands op c s).1 = held op s ↔
      (xAr op = yAr op → xMod op = 0 ∨
        xMod op = 3 ∧ circRef (s.ar (xAr op)) (s.ar 0).toInt s.bk = s.ar (xAr op)) ∧
      ∀ n, s.ar (xAr op) = (Mmr.ar n).addr ∨ s.ar (yAr op) = (Mmr.ar n).addr →
        (stepY op (stepX op s)).ar n = s.ar n := by
  have hfst : (subOperands op c s).1 =
      ((s.ar (xAr op), dataRead (stepY op (stepX op s)) (s.ar (xAr op))),
        ((stepX op s).ar (yAr op),
          dataRead (stepY op (stepX op s)) ((stepX op s).ar (yAr op)))) := by
    rw [subOperands, run_bind, resolveXmem_eq, run_bind, resolveYmem_eq]
    rfl
  have haddr : (stepX op s).ar (yAr op) = s.ar (yAr op) ↔ (xAr op = yAr op → xMod op = 0 ∨
      xMod op = 3 ∧ circRef (s.ar (xAr op)) (s.ar 0).toInt s.bk = s.ar (xAr op)) := by
    rw [← stepped_eq_iff (xMod_lt op)]
    change Function.update s.ar (xAr op) (stepped (xAr op) (xMod op) s) (yAr op) = _ ↔ _
    by_cases hsame : xAr op = yAr op
    · rw [← hsame, Function.update_self]
      simp
    · rw [Function.update_of_ne (fun h => hsame h.symm)]
      simp [hsame]
  have hread : ∀ a, dataRead (stepY op (stepX op s)) a = dataRead s a ↔
      ∀ n, a = (Mmr.ar n).addr → (stepY op (stepX op s)).ar n = s.ar n :=
    fun a => dataRead_ar_iff s (stepY op (stepX op s)).ar a
  rw [hfst, held, Prod.mk.injEq, Prod.mk.injEq, Prod.mk.injEq, ← haddr]
  constructor
  · rintro ⟨⟨-, hx⟩, hya, hy⟩
    rw [hya, hread] at hy
    rw [hread] at hx
    exact ⟨hya, fun n hn => hn.elim (hx n) (hy n)⟩
  · rintro ⟨hya, hregs⟩
    rw [hya, hread, hread]
    exact ⟨⟨rfl, fun n hn => hregs n (.inl hn)⟩, rfl, fun n hn => hregs n (.inr hn)⟩

end

/-- Sums and differences of two words, shifted by 16, are far from the 40 bits. -/
theorem toInt_shifted {v : Acc} {z : Int} (hv : v.toInt = z.bmod (2 ^ 64)) (hlow : -2 ^ 17 ≤ z)
    (hhigh : z ≤ 2 ^ 17) : (sext40 (v <<< 16)).toInt = z * 2 ^ 16 := by
  rw [Int.bmod_eq_of_le (by omega) (by omega)] at hv
  rw [toInt_sext40_bmod, toInt_shiftLeft_bmod, Int.bmod_bmod_of_dvd (by decide), hv,
    Int.bmod_eq_of_le (by omega) (by omega)]

theorem toInt_sumXY (x y : Word) :
    (sext40 ((x.signExtend 64 + y.signExtend 64) <<< 16)).toInt = (x.toInt + y.toInt) * 2 ^ 16 := by
  obtain ⟨hx, hx'⟩ := toInt_word_bounds x
  obtain ⟨hy, hy'⟩ := toInt_word_bounds y
  refine toInt_shifted ?_ (by omega) (by omega)
  rw [toInt_add, toInt_signExtend_of_le (by omega), toInt_signExtend_of_le (by omega)]

theorem toInt_diffXY (x y : Word) :
    (sext40 ((x.signExtend 64 - y.signExtend 64) <<< 16)).toInt = (x.toInt - y.toInt) * 2 ^ 16 := by
  obtain ⟨hx, hx'⟩ := toInt_word_bounds x
  obtain ⟨hy, hy'⟩ := toInt_word_bounds y
  refine toInt_shifted ?_ (by omega) (by omega)
  rw [toInt_sub, toInt_signExtend_of_le (by omega), toInt_signExtend_of_le (by omega)]

/-- ADD and SUB take their operands at the register values held before the instruction, leave the
same auxiliary registers, and give the sum and the difference shifted by 16. -/
structure DualSums (f : BitVec 9) (c : Ctx) (s : Cpu) : Prop where
  addOperands : (addOperands (addXY f) c s.start).1 = held (addXY f) s
  subOperands : (subOperands (subXY f) c s.start).1 = held (addXY f) s
  ar : (execOp (subXY f) c s).2.ar = (execOp (addXY f) c s).2.ar
  sum : ((execOp (addXY f) c s).2.acc (bitSet f 8)).toInt =
    ((held (addXY f) s).1.2.toInt + (held (addXY f) s).2.2.toInt) * 2 ^ 16
  diff : ((execOp (subXY f) c s).2.acc (bitSet f 8)).toInt =
    ((held (addXY f) s).1.2.toInt - (held (addXY f) s).2.2.toInt) * 2 ^ 16

/-- SUB is to ADD as it should be, unless both operands go through one register that X's step
changes, or an operand is an auxiliary register that the steps change. -/
theorem dual_sums_iff (f : BitVec 9) (c : Ctx) (s : Cpu) :
    DualSums f c s ↔
      (xAr (addXY f) = yAr (addXY f) → xMod (addXY f) = 0 ∨ xMod (addXY f) = 3 ∧
        circRef (s.ar (xAr (addXY f))) (s.ar 0).toInt s.bk = s.ar (xAr (addXY f))) ∧
      ∀ n, s.ar (xAr (addXY f)) = (Mmr.ar n).addr ∨ s.ar (yAr (addXY f)) = (Mmr.ar n).addr →
        (stepY (addXY f) (stepX (addXY f) s)).ar n = s.ar n := by
  have hfields := sameFields_subXY f
  have hheld : held (subXY f) s.start = held (addXY f) s := by
    rw [held, hfields.xAr, hfields.yAr]
    rfl
  have hiff := subOperands_iff (subXY f) c s.start
  rw [hheld, hfields.xAr, hfields.yAr, hfields.xMod, hfields.stepXY] at hiff
  refine Iff.trans ⟨fun h => h.subOperands, fun hsub => ?_⟩ hiff
  have hadd : execOp (addXY f) c s = (Action.plain execAddXY).run (addXY f) c s.start :=
    execOp_of_decode (decode_addXY f) c s
  have hsub' : execOp (subXY f) c s = (Action.plain execSubXY).run (subXY f) c s.start :=
    execOp_of_decode (decode_subXY f) c s
  have hdst : dstB (addXY f) = bitSet f 8 := dstB_withField (by decide) f
  have hdst' : dstB (subXY f) = bitSet f 8 := dstB_withField (by decide) f
  refine ⟨rfl, hsub, ?_, ?_, ?_⟩
  · rw [hadd, hsub', run_plain, run_plain, execAddXY_snd, execSubXY_snd, ar_setAcc, ar_setAcc,
      hfields.stepXY]
  · rw [hadd, run_plain, execAddXY_snd, hdst, acc_setAcc, toInt_sumXY]
    rfl
  · rw [hsub', run_plain, execSubXY_snd, hdst', acc_setAcc, toInt_diffXY, hsub]

/-- A core with 5 and 3 at 0x0100 and 0x0101, and all auxiliary registers there. -/
def fiveThree : Cpu :=
  { (boot []).toCpu with
    ar := fun _ => 0x0100
    data := fun a => if a = 0x0100 then 5 else if a = 0x0101 then 3 else 0 }

/-- SUB *AR2+, *AR2+ subtracts the second word from the first, where ADD *AR2+, *AR2+ adds the first
to itself. -/
theorem sub_stepped_register :
    held (addXY 0x088) fiveThree = ((0x0100, 5), (0x0100, 5)) ∧
      ((execOp (addXY 0x088) .boot fiveThree).2.acc false).toInt = (5 + 5) * 2 ^ 16 ∧
      ((execOp (subXY 0x088) .boot fiveThree).2.acc false).toInt = (5 - 3) * 2 ^ 16 ∧
      ¬ DualSums 0x088 .boot fiveThree := by
  have hdiff : ((execOp (subXY 0x088) .boot fiveThree).2.acc false).toInt = (5 - 3) * 2 ^ 16 := by
    decide +kernel
  refine ⟨by decide +kernel, by decide +kernel, hdiff, fun h => ?_⟩
  have hzero := hdiff.symm.trans h.diff
  revert hzero
  decide +kernel

/-! ### MAC and MAS -/

def dualField (dst : Bool) (xy : BitVec 8) : BitVec 9 := BitVec.ofBool dst ++ xy

theorem setWidth_dualField {base : Word} (hbase : base &&& 0xFE00 = base) (isB : Bool)
    (xy : BitVec 8) : (withField base (dualField isB xy)).setWidth 8 =
    (xy.setWidth 16).setWidth 8 := by
  rw [setWidth_withField hbase, dualField]
  apply eq_of_getLsbD_eq
  intro i hi
  have hi' : i < 16 := by omega
  simp only [getLsbD_setWidth, getLsbD_append, hi, hi', if_true, decide_true,
    Bool.true_and]

/-- MAC and MAS Xmem, Ymem, src, dst. -/
def macXY (src dst : Bool) (xy : BitVec 8) : Word :=
  withField (if src then 0xB200 else 0xB000) (dualField dst xy)
def masXY (src dst : Bool) (xy : BitVec 8) : Word :=
  withField (if src then 0xBA00 else 0xB800) (dualField dst xy)

theorem bitSet_dualField (dst : Bool) (xy : BitVec 8) : bitSet (dualField dst xy) 8 = dst := by
  rw [bitSet, dualField, getLsbD_append]
  cases dst <;> rfl

theorem withField_dualField {base : Word} (hbase : base &&& 0xFE00 = base) (dst : Bool)
    (xy : BitVec 8) :
    withField base (dualField dst xy) &&& 0xFF00 = base ||| if dst then 0x0100 else 0 := by
  have hmask : ∀ j < 16, (0xFF00 : Word).getLsbD j = decide (8 ≤ j) := by decide
  have hbit : ∀ d, ∀ j < 16, (if d then (0x0100 : Word) else 0).getLsbD j =
      (d && decide (j = 8)) := by decide
  apply eq_of_getLsbD_eq
  intro i hi
  rw [getLsbD_and, hmask i hi, getLsbD_or, hbit dst i hi]
  by_cases hlow : i < 8
  · have hne : i ≠ 8 := by omega
    rw [decide_eq_false (by omega : ¬ 8 ≤ i), Bool.and_false, decide_eq_false hne, Bool.and_false,
      getLsbD_base hbase (by omega), Bool.or_false]
  · rw [decide_eq_true (by omega : 8 ≤ i), Bool.and_true]
    by_cases heq : i = 8
    · have hdst := dstB_withField hbase (dualField dst xy)
      rw [bitSet_dualField] at hdst
      rw [heq, getLsbD_base hbase (by omega), decide_eq_true rfl, Bool.and_true, Bool.false_or]
      exact hdst
    · rw [decide_eq_false heq, Bool.and_false, Bool.or_false]
      exact bitSet_withField base _ (by omega)

theorem base_macXY (src : Bool) : (if src then 0xB200 else 0xB000 : Word) &&& 0xFE00 =
    if src then 0xB200 else 0xB000 := by
  cases src <;> decide

theorem base_masXY (src : Bool) : (if src then 0xBA00 else 0xB800 : Word) &&& 0xFE00 =
    if src then 0xBA00 else 0xB800 := by
  cases src <;> decide

theorem decode_macXY (src dst : Bool) (xy : BitVec 8) :
    decode (macXY src dst xy) = .plain execMacXY := by
  have hop := withField_dualField (base_macXY src) dst xy
  have hmac : macXY src dst xy &&& 0xF800 = 0xB000 := by
    rw [macXY, and_of_and hop (by decide)]
    cases src <;> cases dst <;> decide
  exact decode_of_first hmac (by decide) rfl

/-- MAS is decoded but for source B and destination A. -/
theorem decode_masXY {src dst : Bool} (h : ¬ (src ∧ dst = false)) (xy : BitVec 8) :
    decode (masXY src dst xy) = .plain (execMasXY false) := by
  have hop := withField_dualField (base_masXY src) dst xy
  have hmas : Entry.hits (plain 0xFC00 0xB800 (execMasXY false)) (masXY src dst xy) := by
    rw [Entry.hits, beq_iff_eq]
    change masXY src dst xy &&& 0xFC00 = 0xB800
    rw [masXY, and_of_and hop (by decide)]
    cases src <;> cases dst <;> decide
  have hfind : [plain 0xFC00 0xB800 (execMasXY false)].find? (·.hits (masXY src dst xy)) =
      some (plain 0xFC00 0xB800 (execMasXY false)) := by
    simp only [List.find?_cons, hmas]
  cases src <;> cases dst
  · exact decode_of_fits hop (by decide) rfl hfind
  · exact decode_of_fits hop (by decide) rfl hfind
  · exact absurd ⟨rfl, rfl⟩ h
  · exact decode_of_fits hop (by decide) rfl hfind

/-- That one is taken for a load of an accumulator from a register. -/
theorem decode_masXY_ba (xy : BitVec 8) : decode (masXY true false xy) = .plain execLdmBa :=
  decode_of_first (withField_dualField (by decide) false xy) (by decide) rfl

def wordsXY (op : Word) (s : Cpu) : Word × Word := ((held op s).1.2, (held op s).2.2)

def prodXY (op : Word) (s : Cpu) : Acc := frct s (mul16 (wordsXY op s).1 (wordsXY op s).2)

theorem execMacXY_snd (hlow : 0xB0 ≤ (op >>> 8).toNat) (hhigh : (op >>> 8).toNat < 0xB4)
    (c : Ctx) (s : Cpu) : (execMacXY op c s).2 = (setT (wordsXY op s).1 c (setAcc (dstB op)
      (sext40 (s.acc (srcB op) + prodXY op s)) c (stepY op (stepX op s))).2).2 := by
  have hmpy : decide ((op >>> 8).toNat = 0xA4 ∨ (op >>> 8).toNat = 0xA5) = false :=
    decide_eq_false (by omega)
  have hmacsu : decide ((op >>> 8).toNat = 0xA6 ∨ (op >>> 8).toNat = 0xA7) = false :=
    decide_eq_false (by omega)
  have hmacr : decide (0xB4 ≤ (op >>> 8).toNat) = false := decide_eq_false (by omega)
  rw [execMacXY, run_bind]
  dsimp only
  rw [run_bind, postXY_eq, run_get_bind]
  simp only [hmpy, hmacsu, hmacr, Bool.or_self, Bool.false_eq_true, if_false]
  rfl

theorem execMasXY_snd (op : Word) (c : Ctx) (s : Cpu) :
    (execMasXY false op c s).2 = (setT (wordsXY op s).1 c (setAcc (dstB op)
      (sext40 (s.acc (srcB op) - prodXY op s)) c (stepY op (stepX op s))).2).2 := by
  rw [execMasXY, run_bind]
  dsimp only
  rw [run_bind, postXY_eq]
  rfl

section Selected

variable {src dst : Bool} {xy : BitVec 8}

theorem ushiftRight_eight (op : Word) : op >>> 8 = (op &&& 0xFF00) >>> 8 := by
  have hmask : ∀ j < 16, 8 ≤ j → (0xFF00 : Word).getLsbD j := by decide
  apply eq_of_getLsbD_eq
  intro i hi
  rw [getLsbD_ushiftRight, getLsbD_ushiftRight, getLsbD_and]
  by_cases hlt : 8 + i < 16
  · rw [hmask _ hlt (by omega), Bool.and_true]
  · rw [getLsbD_of_ge op _ (by omega), Bool.false_and]

theorem selected_withField {base : Word} (hbase : base &&& 0xFE00 = base) (dst : Bool)
    (xy : BitVec 8) : srcB (withField base (dualField dst xy)) = srcB base ∧
      dstB (withField base (dualField dst xy)) = dst := by
  refine ⟨bitSet_withField base _ (by decide), ?_⟩
  rw [dstB_withField hbase, bitSet_dualField]

theorem selected_macXY : srcB (macXY src dst xy) = src ∧ dstB (macXY src dst xy) = dst := by
  cases src <;> exact selected_withField (by decide) dst xy

theorem selected_masXY : srcB (masXY src dst xy) = src ∧ dstB (masXY src dst xy) = dst := by
  cases src <;> exact selected_withField (by decide) dst xy

theorem acc_stored (isB : Bool) (v : Acc) (c : Ctx) (s : Cpu) (b : Bool) :
    (setAcc isB v c s).2.acc b = if b = isB then v else s.acc b := by
  cases isB <;> cases b <;> rfl

variable {s : Cpu}

/-- With OVM clear, an instruction that leaves ST1 shows in the accumulators as it is. -/
theorem acc_runOp_plain {op : Word} {f : Word → Exec Nat} (hop : decode op = .plain f) {c : Ctx}
    (hst1 : (f op c s.start).2.st1 = s.st1) (hovm : bitSet s.st1 St1.ovm = false)
    (b : Bool) : (runOp c op s).acc b = (f op c s.start).2.acc b := by
  have hexec := execOp_plain hop c s
  have hovm' : bitSet (execOp op c s).2.st1 St1.ovm = false := by rw [hexec, hst1, hovm]
  rw [acc_runOp_of_ovm b hovm', hexec]

theorem st1_stored (isB : Bool) (v : Acc) (c : Ctx) (s : Cpu) :
    (setAcc isB v c s).2.st1 = s.st1 := by
  cases isB <;> rfl

theorem runOp_macXY (src dst : Bool) (xy : BitVec 8) (c : Ctx)
    (hovm : bitSet s.st1 St1.ovm = false) :
    (runOp c (macXY src dst xy) s).st1 = s.st1 ∧
      ∀ b, (runOp c (macXY src dst xy) s).acc b =
        if b = dst then sext40 (s.acc src + prodXY (macXY src dst xy) s) else s.acc b := by
  have hhi : 0xB0 ≤ (macXY src dst xy >>> 8).toNat ∧ (macXY src dst xy >>> 8).toNat < 0xB4 := by
    rw [ushiftRight_eight, macXY, withField_dualField (base_macXY src)]
    cases src <;> cases dst <;> decide
  have hsnd := execMacXY_snd hhi.1 hhi.2 c s.start
  rw [selected_macXY.1, selected_macXY.2] at hsnd
  have hst1 : (execMacXY (macXY src dst xy) c s.start).2.st1 = s.st1 := by
    rw [hsnd]
    exact st1_stored _ _ _ _
  refine ⟨?_, fun b => ?_⟩
  · rw [st1_runOp, execOp_plain (decode_macXY src dst xy)]
    exact hst1
  · rw [acc_runOp_plain (decode_macXY src dst xy) hst1 hovm, hsnd]
    exact acc_stored _ _ _ _ _

theorem acc_masXY (h : ¬ (src ∧ dst = false)) (c : Ctx)
    (hovm : bitSet s.st1 St1.ovm = false) :
    (runOp c (masXY src dst xy) s).acc dst = sext40 (s.acc src - prodXY (masXY src dst xy) s) := by
  have hsnd := execMasXY_snd (masXY src dst xy) c s.start
  rw [selected_masXY.1, selected_masXY.2] at hsnd
  have hst1 : (execMasXY false (masXY src dst xy) c s.start).2.st1 = s.st1 := by
    rw [hsnd]
    exact st1_stored _ _ _ _
  rw [acc_runOp_plain (decode_masXY h xy) hst1 hovm, hsnd]
  exact acc_setAcc _ _ _ _

theorem low_masXY : bitSet (masXY src dst xy) 4 = bitSet xy 4 ∧
    masXY src dst xy &&& 0x7F = xy.setWidth 16 &&& 0x7F := by
  have hbyte := setWidth_dualField (base_masXY src) dst xy
  refine ⟨?_, shifted_and_congr (k := 0) hbyte (by decide)⟩
  have hbit := congrArg (·.getLsbD 4) hbyte
  simpa [bitSet, masXY] using hbit

theorem acc_masXY_ba (c : Ctx) (hovm : bitSet s.st1 St1.ovm = false) :
    (runOp c (masXY true false xy) s).acc false = if bitSet xy 4 then s.acc false
      else sext40 ((dataRead s (xy.setWidth 16 &&& 0x7F)).signExtend 64) := by
  have hst1 : (execLdmBa (masXY true false xy) c s.start).2.st1 = s.st1 := st1_stored _ _ c s.start
  rw [acc_runOp_plain (decode_masXY_ba xy) hst1 hovm]
  have hacc := acc_stored (bitSet (masXY true false xy) 4)
    (sext40 ((dataRead s.start (masXY true false xy &&& 0x7F)).signExtend 64)) c s.start false
  rw [low_masXY.1, low_masXY.2] at hacc
  refine (Eq.trans ?_ hacc).trans ?_
  · rw [execLdmBa, run_bind, low_masXY.1, low_masXY.2]
    rfl
  · cases bitSet xy 4 <;> rfl

end Selected

theorem sext40_sext40 (v : Acc) : sext40 (sext40 v) = sext40 v := (canon_sext40 v).symm

theorem sext40_add_sub (x p : Acc) : sext40 (sext40 (sext40 (x + p) - p)) = sext40 x := by
  apply eq_of_toInt_eq
  rw [sext40_sext40, toInt_sext40_bmod, toInt_sub, Int.bmod_bmod_of_dvd (by decide),
    toInt_sext40_add, Int.bmod_sub_bmod, add_sub_cancel_right, ← toInt_sext40_bmod]

/-- MAS of the words MAC has read, from its destination back into its source, restores that. -/
def MasUndoes (c c' : Ctx) (src dst : Bool) (xy xy' : BitVec 8) (s : Cpu) : Prop :=
  sext40 ((runOp c' (masXY dst src xy') (runOp c (macXY src dst xy) s)).acc src) =
    sext40 (s.acc src)

/-- MAS undoes MAC for every selection but the one whose MAS is taken for a load: from A into B and
back. That load leaves A alone when it goes to B. -/
theorem mas_undoes_mac_iff (src dst : Bool) (xy xy' : BitVec 8) (c c' : Ctx) (s : Cpu)
    (hovm : bitSet s.st1 St1.ovm = false)
    (hwords : wordsXY (masXY dst src xy') (runOp c (macXY src dst xy) s) =
      wordsXY (macXY src dst xy) s) :
    MasUndoes c c' src dst xy xy' s ↔ ¬ (src = false ∧ dst = true ∧ bitSet xy' 4 = false ∧
      sext40 ((dataRead (runOp c (macXY src dst xy) s) (xy'.setWidth 16 &&& 0x7F)).signExtend 64) ≠
        sext40 s.a) := by
  obtain ⟨hst1, hacc⟩ := runOp_macXY src dst xy c hovm
  unfold MasUndoes
  generalize runOp c (macXY src dst xy) s = u at hst1 hacc hwords ⊢
  have hovm' : bitSet u.st1 St1.ovm = false := by rw [hst1, hovm]
  by_cases hba : dst = true ∧ src = false
  · obtain ⟨rfl, rfl⟩ := hba
    have ha : u.acc false = s.a := hacc false
    rw [acc_masXY_ba c' hovm']
    cases hbit : bitSet xy' 4 with
    | true =>
      rw [if_pos rfl, ha]
      refine ⟨fun _ h => ?_, fun _ => rfl⟩
      cases h.2.2.1
    | false =>
      rw [if_neg Bool.false_ne_true, sext40_sext40]
      refine ⟨fun heq h => h.2.2.2 heq, fun h => ?_⟩
      by_contra hne
      exact h ⟨rfl, rfl, rfl, hne⟩
  · have hprod : prodXY (masXY dst src xy') u = prodXY (macXY src dst xy) s := by
      rw [prodXY, prodXY, hwords, frct, frct, hst1]
    rw [acc_masXY hba c' hovm', hacc dst, if_pos rfl, hprod, sext40_add_sub]
    refine ⟨fun _ h => hba ⟨h.2.1, h.1⟩, fun _ => rfl⟩

theorem mas_undoes_mac_in_b : MasUndoes .boot .boot true true 0x00 0x00 fiveThree :=
  (mas_undoes_mac_iff true true 0x00 0x00 .boot .boot fiveThree (by decide +kernel)
    (by decide +kernel)).mpr (by simp)

/-- MAC *AR2, *AR2, A, B and MAS *AR2, *AR2, B, A leave IMR in A, which was 0. -/
theorem mas_ba_loads_imr :
    wordsXY (masXY true false 0x00) (runOp .boot (macXY false true 0x00) fiveThree) =
        wordsXY (macXY false true 0x00) fiveThree ∧
      bitSet fiveThree.st1 St1.ovm = false ∧ fiveThree.a = 0 ∧
      (runOp .boot (masXY true false 0x00) (runOp .boot (macXY false true 0x00) fiveThree)).a =
        0x52FD ∧
      ¬ MasUndoes .boot .boot false true 0x00 0x00 fiveThree := by
  unfold MasUndoes
  decide +kernel

end Qosmo.C54x
