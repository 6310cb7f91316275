import Qosmo.C54x.Canon
import Qosmo.C54x.Load

/-!
# Qosmo.C54x.Immediate

The three copies of the immediate and logical group, on 0xF0 and 0xF1, on 0xF2 and on 0xF3
(`hw/arm/calypso/l1-dsp/c54x_exec.c`).

Bits 9 and 8 of these opcodes select source and destination, so that the four pages are one group
of instructions: ADD, SUB, LD, AND, OR and XOR with a long constant and a shift, the same with the
constant on the high word, MAC with a constant, and AND, OR, XOR and SFTL between accumulators. The
source has the code of the group three times, and the page selects the copy. Here each copy takes
any opcode of the group, whatever its page, and the copies are compared.
-/

namespace Qosmo.C54x

open BitVec List Prog

/-! ### The parts that are the same text in each copy -/

/-- `c54x_exec_one`: `switch (subop)` of a constant that was shifted. -/
def lkSwitch (op : Word) (src lkVal : Acc) : Exec Acc :=
  match ((op >>> 4) &&& 0xF).toNat with
  | 0x0 => do carryAdd40 src lkVal; pure (src + lkVal)
  | 0x1 => do carrySub40 src lkVal; pure (src - lkVal)
  | 0x2 => pure lkVal
  | 0x3 => pure (src &&& lkVal)
  | 0x4 => pure (src ||| lkVal)
  | 0x5 => pure (src ^^^ lkVal)
  | _ => pure src

/-- The constant is signed for ADD, SUB and LD. -/
def lkSigned (op : Word) : Prop := ((op >>> 4) &&& 0xF).toNat ≤ 2

instance (op : Word) : Decidable (lkSigned op) := inferInstanceAs (Decidable (_ ≤ _))

/-- `op & 0xF`, the shift of a constant. -/
def shft (op : Word) : Int := (op &&& 0xF).toNat

/-- `op & 0x1F`. -/
def shiftRaw (op : Word) : Int := (op &&& 0x1F).toNat

/-- The tests of the constants with a shift, mask 0xFCF0. -/
def lkTests : List Word := [0xF000, 0xF010, 0xF020, 0xF030, 0xF040, 0xF050]

/-- The tests of the accumulator forms on 0xF2 and 0xF3, mask 0xFCE0. -/
def logicTests : List Word := [0xF080, 0xF0A0, 0xF0C0, 0xF0E0]

/-! ### The copy of 0xF0 and 0xF1 -/

namespace F01

/-- A constant with a shift. -/
def lk (op : Word) : Exec Nat := do
  let op2 ← fetchOp2
  let src := (← get).acc (srcB op)
  let lkBase := if lkSigned op then op2.signExtend 64 else op2.setWidth 64
  let result ← lkSwitch op src (shiftAcc lkBase (shft op))
  setAcc (dstB op) (sext40 result)
  done 2

/-- `if (shift > 15) shift -= 32`. -/
def shift (op : Word) : Int := if 15 < shiftRaw op then shiftRaw op - 32 else shiftRaw op

/-- Between accumulators: both operands are extended, and the result is stored as it is. -/
def logic (op : Word) : Exec Nat := do
  let s ← get
  let shifted := sext40 (logicShifted (s.acc (srcB op)) (shift op))
  let first := sext40 (s.acc (dstB op))
  match ((op >>> 5) &&& 7).toNat with
  | 4 => setAcc (dstB op) (first &&& shifted)
  | 5 => setAcc (dstB op) (first ||| shifted)
  | 6 => setAcc (dstB op) (first ^^^ shifted)
  | 7 => sftlExec op
  | _ => pure ()
  done 1

/-- The code for an opcode; the constants on the high word are `execImm16`, as modelled for the
pages themselves. -/
def code (op : Word) : Option (Exec Nat) :=
  let aluOp := ((op >>> 4) &&& 0xF).toNat
  if op &&& 0xFCF0 ∈ lkTests then some (lk op)
  else if op &&& 0xFC00 = 0xF000 ∧ aluOp = 6 then some (execImm16 op)
  else if op &&& 0xFC00 = 0xF000 ∧ 8 ≤ aluOp then some (logic op)
  else none

end F01

/-! ### The copy of 0xF2 -/

namespace F2

/-- A constant on the high word, and MAC. -/
def lk16 (op : Word) : Exec Nat := do
  let op2 ← fetchOp2
  let s ← get
  let src := s.acc (srcB op)
  let result ← match (op &&& 0x7).toNat with
    | 0x0 => do
      carryAdd40 src (op2.signExtend 64 <<< 16)
      pure (src + op2.signExtend 64 <<< 16)
    | 0x1 => do
      carrySub40 src (op2.signExtend 64 <<< 16)
      pure (src - op2.signExtend 64 <<< 16)
    | 0x2 => pure (op2.signExtend 64 <<< 16)
    | 0x3 => pure (src &&& op2.setWidth 64 <<< 16)
    | 0x4 => pure (src ||| op2.setWidth 64 <<< 16)
    | 0x5 => pure (src ^^^ op2.setWidth 64 <<< 16)
    | 0x7 => pure (src + frct s (mul16 s.t op2))
    | _ => pure src
  setAcc (dstB op) (sext40 result)
  done 2

def lk (op : Word) : Exec Nat := do
  let op2 ← fetchOp2
  let src := (← get).acc (srcB op)
  let lkSignedVal := if lkSigned op then op2.signExtend 64 else op2.setWidth 64
  let result ← lkSwitch op src (shiftAcc lkSignedVal (shft op))
  setAcc (dstB op) (sext40 result)
  done 2

/-- `(shift_raw & 0x10) ? (shift_raw - 32) : shift_raw`. -/
def shift (op : Word) : Int := if bitSet op 4 then shiftRaw op - 32 else shiftRaw op

/-- Between accumulators: the result is extended. -/
def logic (op : Word) : Exec Nat := do
  let s ← get
  let sh := logicShifted (s.acc (srcB op)) (shift op)
  let dstIn := s.acc (dstB op)
  match ((op >>> 5) &&& 7).toNat with
  | 4 => setAcc (dstB op) (sext40 (dstIn &&& sh))
  | 5 => setAcc (dstB op) (sext40 (dstIn ||| sh))
  | 6 => setAcc (dstB op) (sext40 (dstIn ^^^ sh))
  | 7 => sftlExec op
  | _ => setAcc (dstB op) (sext40 (s.acc (srcB op)))
  done 1

def lk16Tests : List Word := [0xF060, 0xF061, 0xF062, 0xF063, 0xF064, 0xF065, 0xF067]

def code (op : Word) : Option (Exec Nat) :=
  if op &&& 0xFCFF ∈ lk16Tests then some (lk16 op)
  else if op &&& 0xFCF0 ∈ lkTests then some (lk op)
  else if op &&& 0xFCE0 ∈ logicTests then some (logic op)
  else none

end F2

/-! ### The copy of 0xF3 -/

namespace F3

/-- A constant on the high word, and MAC; there is no LD here. -/
def lk16 (op : Word) : Exec Nat := do
  let op2 ← fetchOp2
  let s ← get
  let src := s.acc (srcB op)
  let result ← match (op &&& 0x7).toNat with
    | 0x0 => do
      carryAdd40 src (op2.signExtend 64 <<< 16)
      pure (src + op2.signExtend 64 <<< 16)
    | 0x1 => do
      carrySub40 src (op2.signExtend 64 <<< 16)
      pure (src - op2.signExtend 64 <<< 16)
    | 0x3 => pure (src &&& op2.setWidth 64 <<< 16)
    | 0x4 => pure (src ||| op2.setWidth 64 <<< 16)
    | 0x5 => pure (src ^^^ op2.setWidth 64 <<< 16)
    | 0x7 => pure (src + frct s (mul16 s.t op2))
    | _ => pure src
  setAcc (dstB op) (sext40 result)
  done 2

def lk (op : Word) : Exec Nat := do
  let op2 ← fetchOp2
  let src := (← get).acc (srcB op)
  let lkVal := if lkSigned op then shiftAcc (op2.signExtend 64) (shft op)
    else shiftAcc (op2.setWidth 64) (shft op)
  let result ← lkSwitch op src lkVal
  setAcc (dstB op) (sext40 result)
  done 2

def lk16Tests : List Word := [0xF060, 0xF061, 0xF063, 0xF064, 0xF065, 0xF067]

/-- The code for an opcode; the accumulator forms are those of 0xF2 letter for letter. -/
def code (op : Word) : Option (Exec Nat) :=
  if op &&& 0xFCFF ∈ lk16Tests then some (lk16 op)
  else if op &&& 0xFCF0 ∈ lkTests then some (lk op)
  else if op &&& 0xFCE0 ∈ logicTests then some (F2.logic op)
  else none

end F3

/-! ### The same operation in two copies -/

theorem shiftRaw_eq (op : Word) : shiftRaw op = ((op.setWidth 5).toNat : Int) := by
  have hraw : op &&& 0x1F = (op.setWidth 5).setWidth 16 := by
    have hmask : ∀ j < 16, (0x1F : Word).getLsbD j = decide (j < 5) := by decide
    apply eq_of_getLsbD_eq
    intro i hi
    rw [getLsbD_and, hmask i hi, getLsbD_setWidth, getLsbD_setWidth]
    simp [hi, Bool.and_comm]
  rw [shiftRaw, hraw, toNat_setWidth_of_le (by decide)]

theorem F01.shift_eq (op : Word) : F01.shift op = shift5 op := by
  have hsplit : ∀ x : BitVec 5,
      (if (15 : Int) < x.toNat then (x.toNat : Int) - 32 else x.toNat) = x.toInt := by decide
  rw [F01.shift, shiftRaw_eq]
  exact hsplit (op.setWidth 5)

theorem F2.shift_eq (op : Word) : F2.shift op = shift5 op := by
  have hsplit : ∀ x : BitVec 5,
      (if x.getLsbD 4 then (x.toNat : Int) - 32 else x.toNat) = x.toInt := by decide
  have hbit : bitSet op 4 = (op.setWidth 5).getLsbD 4 := by
    rw [bitSet, getLsbD_setWidth]
    rfl
  rw [F2.shift, shiftRaw_eq, hbit]
  exact hsplit (op.setWidth 5)

theorem sext40_and (x y : Acc) : sext40 (x &&& y) = sext40 x &&& sext40 y := by
  apply eq_of_getLsbD_eq
  intro i hi
  simp only [getLsbD_and, getLsbD_sext40 _ hi]

theorem sext40_or (x y : Acc) : sext40 (x ||| y) = sext40 x ||| sext40 y := by
  apply eq_of_getLsbD_eq
  intro i hi
  simp only [getLsbD_or, getLsbD_sext40 _ hi]

theorem sext40_xor (x y : Acc) : sext40 (x ^^^ y) = sext40 x ^^^ sext40 y := by
  apply eq_of_getLsbD_eq
  intro i hi
  simp only [getLsbD_xor, getLsbD_sext40 _ hi]

variable {op : Word}

theorem sub_cases (hsub : 4 ≤ ((op >>> 5) &&& 7 : Word).toNat) :
    ((op >>> 5) &&& 7 : Word).toNat = 4 ∨ ((op >>> 5) &&& 7 : Word).toNat = 5 ∨
      ((op >>> 5) &&& 7 : Word).toNat = 6 ∨ ((op >>> 5) &&& 7 : Word).toNat = 7 := by
  have hle : ((op >>> 5) &&& 7 : Word).toNat ≤ 7 := by
    rw [toNat_and]
    exact Nat.and_le_right
  omega

/-- For the accumulator forms it does not matter whether operands or result are extended. -/
theorem logic_eq (hsub : 4 ≤ ((op >>> 5) &&& 7).toNat) : F2.logic op = F01.logic op := by
  have hcases := sub_cases hsub
  unfold F2.logic F01.logic
  simp only [F2.shift_eq, F01.shift_eq, ← sext40_and, ← sext40_or, ← sext40_xor]
  rcases hcases with h | h | h | h <;> rw [h] <;> rfl

theorem lk_eq_f2 (op : Word) : F2.lk op = F01.lk op := rfl

theorem lk_eq_f3 (op : Word) : F3.lk op = F01.lk op := by
  unfold F3.lk F01.lk
  simp only [apply_ite (fun v => shiftAcc v (shft op))]

variable {c : Ctx} {s : Cpu}

theorem fetchOp2_of_lkUsed (hlk : s.lkUsed = false) : fetchOp2 c s = fetchAt 1 c s := by
  show fetchAt (1 + s.lkUsed.toNat) c s = fetchAt 1 c s
  rw [hlk]
  rfl

/-- On extended accumulators the logical results of the first copy are extended already. -/
theorem lk16_eq_f2 (hop : op &&& 0xFCFF ∈ F2.lk16Tests)
    (hs : Canonical s) (hlk : s.lkUsed = false) : F2.lk16 op c s = execImm16 op c s := by
  have hsrc := hs.acc (srcB op)
  have h7 : op &&& 7 = (op &&& 0xFCFF) &&& 7 := by rw [BitVec.and_assoc]; rfl
  have hF : op &&& 0xF = (op &&& 0xFCFF) &&& 0xF := by rw [BitVec.and_assoc]; rfl
  rw [F2.lk16, execImm16, run_bind, fetchOp2_of_lkUsed hlk, run_get_bind, run_get_bind, run_bind]
  generalize (fetchAt 1 c s).1 = op2
  have hlk16 := canon_shiftLeft_word op2
  let store : Acc → Nat × Cpu := fun v => (setAcc (dstB op) v >>= fun _ => done 2) c s
  rw [h7, hF]
  generalize op &&& 0xFCFF = v at hop
  simp only [F2.lk16Tests, mem_cons, not_mem_nil, or_false] at hop
  rcases hop with rfl | rfl | rfl | rfl | rfl | rfl | rfl
  · rfl
  · rfl
  · rfl
  · exact congrArg store (hsrc.and hlk16).symm
  · exact congrArg store (hsrc.or hlk16).symm
  · exact congrArg store (hsrc.xor hlk16).symm
  · rfl

theorem lk16_eq_f3 (hop : op &&& 0xFCFF ∈ F3.lk16Tests) : F3.lk16 op = F2.lk16 op := by
  have h7 : op &&& 7 = (op &&& 0xFCFF) &&& 7 := by rw [BitVec.and_assoc]; rfl
  unfold F3.lk16 F2.lk16
  rw [h7]
  generalize op &&& 0xFCFF = v at hop
  simp only [F3.lk16Tests, mem_cons, not_mem_nil, or_false] at hop
  rcases hop with rfl | rfl | rfl | rfl | rfl | rfl <;> rfl

/-! ### The tests of the copies -/

variable {mask : Word}

theorem and_and_of {mask' : Word} (hmask : mask &&& mask' = mask') :
    op &&& mask' = (op &&& mask) &&& mask' := by
  rw [BitVec.and_assoc, hmask]

theorem aluOp_eq (op : Word) : ((op >>> 4) &&& 0xF : Word) = (op &&& 0xF0) >>> 4 := by
  rw [ushiftRight_and_distrib]
  rfl

theorem sub_eq (op : Word) : ((op >>> 5) &&& 7 : Word) = (op &&& 0xE0) >>> 5 := by
  rw [ushiftRight_and_distrib]
  rfl

theorem code_f01_of_lk (hop : op &&& 0xFCF0 ∈ lkTests) :
    F01.code op = some (F01.lk op) := if_pos hop

theorem code_f01_of_lk16 (hop : op &&& 0xFCFF ∈ F2.lk16Tests) :
    F01.code op = some (execImm16 op) := by
  have hF0 : op &&& 0xF0 = (op &&& 0xFCFF) &&& 0xF0 := and_and_of rfl
  have hpage : op &&& 0xFC00 = (op &&& 0xFCFF) &&& 0xFC00 := and_and_of rfl
  have htest : op &&& 0xFCF0 = (op &&& 0xFCFF) &&& 0xFCF0 := and_and_of rfl
  unfold F01.code
  rw [aluOp_eq, hF0, hpage, htest]
  generalize op &&& 0xFCFF = v at hop
  simp only [F2.lk16Tests, mem_cons, not_mem_nil, or_false] at hop
  rcases hop with rfl | rfl | rfl | rfl | rfl | rfl | rfl <;> rfl


theorem bits_of_logic (hop : op &&& 0xFCE0 ∈ logicTests) :
    op &&& 0x80 = 0x80 ∧ op &&& 0xFC00 = 0xF000 ∧ 4 ≤ ((op >>> 5) &&& 7).toNat := by
  have hE0 : op &&& 0xE0 = (op &&& 0xFCE0) &&& 0xE0 := and_and_of rfl
  have hpage : op &&& 0xFC00 = (op &&& 0xFCE0) &&& 0xFC00 := and_and_of rfl
  have h80 : op &&& 0x80 = (op &&& 0xFCE0) &&& 0x80 := and_and_of rfl
  have htests : ∀ v ∈ logicTests, v &&& 0x80 = 0x80 ∧ v &&& 0xFC00 = 0xF000 ∧
      4 ≤ ((v &&& 0xE0) >>> 5).toNat := by simp [logicTests]
  rw [sub_eq, hE0, hpage, h80]
  exact htests _ hop

theorem code_f01_of_logic (hop : op &&& 0xFCE0 ∈ logicTests) :
    F01.code op = some (F01.logic op) := by
  obtain ⟨hbit, hfamily, -⟩ := bits_of_logic hop
  -- bit 7 is clear in the constants with a shift, and makes `alu_op` at least 8
  have hlk : op &&& 0xFCF0 ∉ lkTests := by
    intro hmem
    have hsame : op &&& 0x80 = (op &&& 0xFCF0) &&& 0x80 := and_and_of rfl
    have htests : ∀ v ∈ lkTests, v &&& 0x80 ≠ 0x80 := by simp [lkTests]
    exact htests _ hmem (hsame.symm.trans hbit)
  have halu : 8 ≤ ((op >>> 4) &&& 0xF : Word).toNat := by
    have hhigh : (((op >>> 4) &&& 0xF) &&& 0x8 : Word) = (op &&& 0x80) >>> 4 := by
      rw [ushiftRight_and_distrib, BitVec.and_assoc]
      rfl
    have hle : (((op >>> 4) &&& 0xF) &&& 0x8 : Word).toNat ≤ ((op >>> 4) &&& 0xF : Word).toNat := by
      rw [toNat_and (_ &&& _)]
      exact Nat.and_le_left
    rw [hhigh, hbit] at hle
    exact hle
  unfold F01.code
  rw [if_neg hlk, if_neg (by omega), if_pos ⟨hfamily, halu⟩]

/-! ### The copies compared -/

inductive Copy where
  | f01
  | f2
  | f3
  deriving Repr, DecidableEq

namespace Copy

def code : Copy → Word → Option (Exec Nat)
  | f01 => F01.code
  | f2 => F2.code
  | f3 => F3.code

/-- The opcode executed by the copy, from the start of `c54x_exec_one`: the words used up, and the
state. -/
def exec (k : Copy) (op : Word) (c : Ctx) (s : Cpu) : Option (Nat × Cpu) :=
  (k.code op).map fun f => f c { s with lkUsed := false }

theorem of_tests {α : Type} {p q r : Prop} [Decidable p] [Decidable q] [Decidable r] {x y z f : α}
    (h : (if p then some x else if q then some y else if r then some z else none) = some f) :
    (p ∧ x = f) ∨ (q ∧ y = f) ∨ (r ∧ z = f) := by
  split at h
  · exact .inl ⟨‹_›, Option.some.inj h⟩
  · split at h
    · exact .inr (.inl ⟨‹_›, Option.some.inj h⟩)
    · split at h
      · exact .inr (.inr ⟨‹_›, Option.some.inj h⟩)
      · cases h

theorem mem_lk16Tests {v : Word} (h : v ∈ F3.lk16Tests) : v ∈ F2.lk16Tests := by
  simp only [F3.lk16Tests, F2.lk16Tests, mem_cons] at h ⊢
  tauto

/-- The first copy has everything the others have, and computes the same. -/
theorem exec_f01 {k : Copy} {op : Word} {c : Ctx} {s : Cpu} (hs : Canonical s) {r : Nat × Cpu}
    (hr : k.exec op c s = some r) : exec f01 op c s = some r := by
  have hs' : Canonical { s with lkUsed := false } := hs.congr rfl rfl
  obtain ⟨f, hf, rfl⟩ := Option.map_eq_some_iff.mp hr
  have hf01 : ∀ {g : Exec Nat}, F01.code op = some g →
      exec f01 op c s = some (g c { s with lkUsed := false }) := fun hg => by
    rw [exec, code, hg, Option.map_some]
  cases k with
  | f01 => exact hf01 hf
  | f2 =>
    rcases of_tests hf with ⟨hop, rfl⟩ | ⟨hop, rfl⟩ | ⟨hop, rfl⟩
    · rw [hf01 (code_f01_of_lk16 hop), lk16_eq_f2 hop hs' rfl]
    · rw [hf01 (code_f01_of_lk hop), lk_eq_f2]
    · rw [hf01 (code_f01_of_logic hop), logic_eq (bits_of_logic hop).2.2]
  | f3 =>
    rcases of_tests hf with ⟨hop, rfl⟩ | ⟨hop, rfl⟩ | ⟨hop, rfl⟩
    · rw [hf01 (code_f01_of_lk16 (mem_lk16Tests hop)), lk16_eq_f3 hop,
        lk16_eq_f2 (mem_lk16Tests hop) hs' rfl]
    · rw [hf01 (code_f01_of_lk hop), lk_eq_f3]
    · rw [hf01 (code_f01_of_logic hop), logic_eq (bits_of_logic hop).2.2]

end Copy

/-! ### The copies and the instructions -/

theorem logic_eq_execLogic (op : Word) : F01.logic op = execLogic op := by
  unfold F01.logic
  rw [F01.shift_eq]
  rfl

theorem logic_eq_execLogicExt (hsub : 4 ≤ ((op >>> 5) &&& 7).toNat) :
    F2.logic op = execLogicExt op := by
  have hcases := sub_cases hsub
  unfold F2.logic execLogicExt
  rw [F2.shift_eq]
  rcases hcases with h | h | h | h <;> rw [h] <;> rfl

theorem shiftAcc_shft (v : Acc) (op : Word) : shiftAcc v (shft op) = v <<< (op &&& 0xF).toNat := by
  rw [shiftAcc, shft, if_pos (Int.natCast_nonneg _), Int.toNat_natCast]

theorem lk_eq_execImm (hop : op &&& 0xFCF0 ∈ lkTests)
    (hlk : s.lkUsed = false) : F01.lk op c s = execImm op c s := by
  have hF0 : op &&& 0xF0 = (op &&& 0xFCF0) &&& 0xF0 := and_and_of rfl
  rw [F01.lk, execImm, run_bind, fetchOp2_of_lkUsed hlk, run_get_bind, run_get_bind, run_bind]
  simp only [lkSwitch, lkSigned, shiftAcc_shft, aluOp_eq, hF0]
  generalize op &&& 0xFCF0 = v at hop
  simp only [lkTests, mem_cons, not_mem_nil, or_false] at hop
  rcases hop with rfl | rfl | rfl | rfl | rfl | rfl <;> rfl

theorem lk16_eq_execImm16Ext (hlk : s.lkUsed = false) : F2.lk16 op c s = execImm16Ext op c s := by
  rw [F2.lk16, execImm16Ext, run_bind, fetchOp2_of_lkUsed hlk, run_get_bind, run_get_bind, run_bind]
  rfl

theorem decode_lk (hop : op &&& 0xFCF0 ∈ lkTests) : decode op = .plain execImm := by
  simp only [lkTests, mem_cons, not_mem_nil, or_false] at hop
  rcases hop with h | h | h | h | h | h <;> exact decode_of_first h rfl rfl

theorem and_union {mask' v v' : Word} (h : op &&& mask = v) (h' : op &&& mask' = v') :
    op &&& (mask ||| mask') = v ||| v' := by
  rw [and_or_distrib_left, h, h']

theorem and_of_aluOp {v : Word} (hmask : (mask <<< 4 &&& 0xFFF0 : Word) = mask <<< 4)
    (h : op >>> 4 &&& mask = v) : op &&& mask <<< 4 = v <<< 4 := by
  rw [← h, shiftLeft_and_distrib, shiftLeft_ushiftRight, BitVec.and_assoc,
    show (BitVec.allOnes 16 <<< 4 : Word) = 0xFFF0 from rfl, BitVec.and_comm 0xFFF0, hmask]

theorem decode_lk16 (hpage : op &&& 0xFE00 = 0xF000)
    (halu : (op >>> 4 &&& 0xF : Word).toNat = 6) : decode op = .plain execImm16 := by
  have hsix : op >>> 4 &&& (0xF : Word) = 6 := eq_of_toNat_eq halu
  have hF0 : op &&& 0xF0 = 0x60 := and_of_aluOp rfl hsix
  exact decode_of_first (and_union hpage hF0) rfl rfl

theorem decode_logic (hpage : op &&& 0xFE00 = 0xF000)
    (halu : 8 ≤ (op >>> 4 &&& 0xF : Word).toNat) : decode op = .plain execLogic := by
  have height : op >>> 4 &&& (0x8 : Word) = 8 := by
    have hupper : ∀ n < 16, 8 ≤ n → n &&& 8 = 8 := by decide
    have hlt : (op >>> 4 &&& 0xF : Word).toNat < 16 := by
      rw [toNat_and]
      exact Nat.lt_succ_of_le Nat.and_le_right
    have hsame : op >>> 4 &&& (0x8 : Word) = (op >>> 4 &&& 0xF) &&& 0x8 := and_and_of rfl
    rw [hsame]
    exact eq_of_toNat_eq ((toNat_and _ _).trans (hupper _ hlt halu))
  have h80 : op &&& 0x80 = 0x80 := and_of_aluOp rfl height
  exact decode_of_first (and_union hpage h80) rfl rfl

theorem eq_of_parts {v page : Word} (hop : op &&& 0xFCFF = v) (hpage : op &&& 0xFF00 = page) :
    op = v ||| page := by
  rw [← hop, ← hpage, ← and_or_distrib_left]
  exact (and_allOnes).symm

theorem decode_lk16_f2 (hpage : op &&& 0xFF00 = 0xF200)
    (hop : op &&& 0xFCFF ∈ F2.lk16Tests) : decode op = .plain execImm16Ext := by
  simp only [F2.lk16Tests, mem_cons, not_mem_nil, or_false] at hop
  rcases hop with h | h | h | h | h | h | h <;> rw [eq_of_parts h hpage] <;> rfl

theorem decode_lk16_f3 (hpage : op &&& 0xFF00 = 0xF300)
    (hop : op &&& 0xFCFF ∈ F3.lk16Tests) : decode op = .plain execImm16Ext := by
  simp only [F3.lk16Tests, mem_cons, not_mem_nil, or_false] at hop
  rcases hop with h | h | h | h | h | h <;> rw [eq_of_parts h hpage] <;> rfl

theorem decode_logic_ext (hpage : op &&& 0xFE00 = 0xF200)
    (hop : op &&& 0xFCE0 ∈ logicTests) : decode op = .plain execLogicExt := by
  exact decode_of_first (and_union hpage (bits_of_logic hop).1) rfl rfl

namespace Copy

def ofPage (op : Word) : Option Copy :=
  if op &&& 0xFE00 = 0xF000 then some f01
  else if op &&& 0xFF00 = 0xF200 then some f2
  else if op &&& 0xFF00 = 0xF300 then some f3
  else none

variable {op : Word} {r : Nat × Cpu}

theorem execOp_of_plain {f : Word → Exec Nat} (hop : decode op = .plain f) {c : Ctx}
    {s : Cpu} (hf : f op c { s with lkUsed := false } = r) :
    execOp op c s = (.flow (.next r.1), r.2) := by
  rw [execOp_of_decode hop, run_plain, hf]

theorem execOp_f01 (hpage : op &&& 0xFE00 = 0xF000) {c : Ctx} {s : Cpu}
    (hr : exec f01 op c s = some r) : execOp op c s = (.flow (.next r.1), r.2) := by
  obtain ⟨f, hf, rfl⟩ := Option.map_eq_some_iff.mp hr
  rcases of_tests hf with ⟨hop, rfl⟩ | ⟨⟨-, halu⟩, rfl⟩ | ⟨⟨-, halu⟩, rfl⟩
  · exact execOp_of_plain (decode_lk hop) (lk_eq_execImm hop rfl).symm
  · exact execOp_of_plain (decode_lk16 hpage halu) rfl
  · refine execOp_of_plain (decode_logic hpage halu) ?_
    rw [logic_eq_execLogic]

/-- An instruction of the group executes the copy that its page selects. -/
theorem execOp_ofPage {k : Copy} (hk : ofPage op = some k) {c : Ctx} {s : Cpu}
    (hr : k.exec op c s = some r) : execOp op c s = (.flow (.next r.1), r.2) := by
  rcases of_tests hk with ⟨hpage, rfl⟩ | ⟨hpage, rfl⟩ | ⟨hpage, rfl⟩
  · exact execOp_f01 hpage hr
  all_goals
    obtain ⟨f, hf, rfl⟩ := Option.map_eq_some_iff.mp hr
    have hpage' : op &&& 0xFE00 = 0xF200 := and_of_and hpage rfl
    rcases of_tests hf with ⟨hop, rfl⟩ | ⟨hop, rfl⟩ | ⟨hop, rfl⟩
  · exact execOp_of_plain (decode_lk16_f2 hpage hop) (lk16_eq_execImm16Ext rfl).symm
  · exact execOp_of_plain (decode_lk hop) (lk_eq_execImm hop rfl).symm
  · refine execOp_of_plain (decode_logic_ext hpage' hop) ?_
    rw [logic_eq_execLogicExt (bits_of_logic hop).2.2]
  · refine execOp_of_plain (decode_lk16_f3 hpage hop) ?_
    rw [lk16_eq_f3 hop]
    exact (lk16_eq_execImm16Ext rfl).symm
  · refine execOp_of_plain (decode_lk hop) ?_
    rw [lk_eq_f3]
    exact (lk_eq_execImm hop rfl).symm
  · refine execOp_of_plain (decode_logic_ext hpage' hop) ?_
    rw [logic_eq_execLogicExt (bits_of_logic hop).2.2]

/-- The operations all three copies have: all but MPY #lk, which is on 0xF0 and 0xF1 only, and
LD #lk,16, which is not on 0xF3. -/
def Shared (op : Word) : Prop :=
  op &&& 0xFCF0 ∈ lkTests ∨ op &&& 0xFCFF ∈ F3.lk16Tests ∨ op &&& 0xFCE0 ∈ logicTests

instance (op : Word) : Decidable (Shared op) := inferInstanceAs (Decidable (_ ∨ _ ∨ _))

theorem isSome_of_tests {α : Type} {p q r : Prop} [Decidable p] [Decidable q] [Decidable r]
    {x y z : α} (h : p ∨ q ∨ r) :
    (if p then some x else if q then some y else if r then some z else none).isSome := by
  split
  · rfl
  · split
    · rfl
    · rw [if_pos (by tauto)]
      rfl

theorem isSome_exec (hop : Shared op) (k : Copy) (c : Ctx) (s : Cpu) :
    (k.exec op c s).isSome := by
  rw [exec, Option.isSome_map]
  cases k with
  | f01 =>
    rcases hop with h | h | h
    · rw [code, code_f01_of_lk h]
      rfl
    · rw [code, code_f01_of_lk16 (mem_lk16Tests h)]
      rfl
    · rw [code, code_f01_of_logic h]
      rfl
  | f2 =>
    have hmem := fun h => mem_lk16Tests (v := op &&& 0xFCFF) h
    exact isSome_of_tests (by unfold Shared at hop; tauto)
  | f3 => exact isSome_of_tests (by unfold Shared at hop; tauto)

end Copy

/-- The three copies compute the same, result, carry and everything else, from extended
accumulators, for every opcode of the group whatever source, destination and shift it selects; each
has the whole of the shared operations, and is what the instructions of its page execute. -/
theorem copies_agree (op : Word) (c : Ctx) (s : Cpu) (hs : Canonical s) :
    (∀ k k' r r', Copy.exec k op c s = some r → Copy.exec k' op c s = some r' → r = r') ∧
      (Copy.Shared op → ∀ k, (Copy.exec k op c s).isSome = true) ∧
      ∀ k r, Copy.ofPage op = some k → Copy.exec k op c s = some r →
        execOp op c s = (.flow (.next r.1), r.2) := by
  refine ⟨fun k k' r r' hr hr' => ?_, fun hop k => Copy.isSome_exec hop k c s,
    fun k r hk hr => Copy.execOp_ofPage hk hr⟩
  have hfirst := Copy.exec_f01 hs hr
  rw [Copy.exec_f01 hs hr'] at hfirst
  exact (Option.some.inj hfirst).symm

def blockFlag : Cpu := { (boot []).toCpu with a := 0x15, b := 0x8000 }

/-- OR A,5,B on 0xF1, by the copy of its page and by that of 0xF3. -/
theorem copies_agree_or :
    Copy.exec .f01 0xF1A5 .boot blockFlag = Copy.exec .f3 0xF1A5 .boot blockFlag := by
  obtain ⟨hsame, hall, -⟩ := copies_agree 0xF1A5 .boot blockFlag ⟨by decide, by decide⟩
  obtain ⟨r, hr⟩ := Option.isSome_iff_exists.mp (hall (by decide) .f01)
  obtain ⟨r', hr'⟩ := Option.isSome_iff_exists.mp (hall (by decide) .f3)
  rw [hr, hr', hsame .f01 .f3 r r' hr hr']

end Qosmo.C54x
