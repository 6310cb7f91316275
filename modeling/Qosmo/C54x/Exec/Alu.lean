import Qosmo.C54x.Decode

/-!
# Qosmo.C54x.Exec.Alu

Accumulator arithmetic of `c54x_exec.c`: the helpers the instruction families
share, the instructions that work on the accumulators alone (0xF4..0xF7) and the
ones with an immediate word (0xF0..0xF3).
-/

namespace Qosmo.C54x

/-! ### Fields of the opcode -/

/-- `c54x_f4_srcdst`: bit 9 selects the source, bit 8 the destination. -/
def srcB (op : Word) : Bool := bitSet op 9
def dstB (op : Word) : Bool := bitSet op 8

/-- A 5-bit signed shift count. -/
def shift5 (op : Word) : Int := (op.setWidth 5).toInt

/-! ### Helpers -/

/-- Shift an `int64_t`: left for a count ≥ 0, arithmetic right otherwise. -/
def shiftAcc (v : Acc) (n : Int) : Acc :=
  if 0 ≤ n then v <<< n.toNat else v.sshiftRight (-n).toNat

/-- The high word of an accumulator. -/
def hi16 (v : Acc) : Word := (v >>> 16).setWidth 16

/-- The product of two signed words. -/
def mul16 (x y : Word) : Acc := x.signExtend 64 * y.signExtend 64

/-- In fractional mode products are doubled. -/
def frct (s : Cpu) (p : Acc) : Acc := if bitSet s.st1 St1.frct then p <<< 1 else p

/-- A memory word as an operand: signed when SXM is set. -/
def sxm (s : Cpu) (w : Word) : Acc :=
  if bitSet s.st1 St1.sxm then w.signExtend 64 else w.setWidth 64

def sat32 (v : Acc) : Acc :=
  if 0x7FFFFFFF < v.toInt then 0x7FFFFFFF
  else if v.toInt < -0x80000000 then BitVec.ofInt 64 (-0x80000000)
  else v

/-- The overflow flag of an accumulator. -/
def ovBit (isB : Bool) : Nat := if isB then St0.ovb else St0.ova

/-- `c54x_neg_abs_ovf`: store a result of up to 41 bits, with overflow handling. -/
def negAbsOvf (isB : Bool) (r : Acc) : Exec Unit := do
  let s ← get
  setAcc isB (sext40 r)
  if !bitSet s.st1 St1.c16 && decide (r ≠ sat32 r) then
    putSt0 (ovBit isB) true
    if bitSet s.st1 St1.ovm then setAcc isB (sat32 r)

def mask40 : Acc := 0xFFFFFFFFFF

def carryAdd40 (a b : Acc) : Exec Unit :=
  putSt0 St0.c (bitSet ((a &&& mask40) + (b &&& mask40)) 40)

/-- `c54x_carry_sub40`: C is the complement of the borrow. -/
def carrySub40 (a b : Acc) : Exec Unit :=
  putSt0 St0.c (decide (b &&& mask40 ≤ a &&& mask40))

def sftaExec (op : Word) : Exec Unit := do
  let s ← get
  let shift := shift5 op
  let sv := sext40 (s.acc (srcB op))
  let cbit := if shift < 0 then bitSet sv ((-shift).toNat - 1)
    else if 0 < shift then bitSet sv (40 - shift.toNat)
    else bitSet s.st0 St0.c
  putSt0 St0.c cbit
  let r := if 0 ≤ shift then sv <<< shift.toNat
    else if !bitSet s.st1 St1.sxm then (sv &&& mask40) >>> (-shift).toNat
    else sv.sshiftRight (-shift).toNat
  setAcc (dstB op) (sext40 r)

/-- `c54x_sftl_exec`: the low 32 bits, shifted logically. -/
def sftlExec (op : Word) : Exec Unit := do
  let s ← get
  let shift := shift5 op
  let v : BitVec 32 := (s.acc (srcB op)).setWidth 32
  let r := if shift < 0 then (bitSet v ((-shift).toNat - 1), v >>> (-shift).toNat)
    else if shift = 0 then (false, v)
    else (bitSet v (32 - shift.toNat), v <<< shift.toNat)
  putSt0 St0.c r.1
  setAcc (dstB op) (r.2.setWidth 64)

/-- `c54x_logic_shifted`: a logical shift of the 40 bits. -/
def logicShifted (acc : Acc) (shift : Int) : Acc :=
  let v := acc &&& mask40
  if 0 ≤ shift then (v <<< shift.toNat) &&& mask40 else v >>> (-shift).toNat

/-- `c54x_smem16_shifted`: a memory operand aligned on the high word. -/
def smem16Shifted (s : Cpu) (w : Word) : Acc := sxm s w <<< 16

/-! ### Accumulator instructions (0xF4..0xF7) -/

def execSat (op : Word) : Exec Nat := do
  let isB := dstB op
  let val := sext40 ((← get).acc isB)
  if val = sat32 val then putSt0 (ovBit isB) false
  else
    setAcc isB (sext40 (sat32 val))
    putSt0 (ovBit isB) true
  done 1

def execNeg (op : Word) : Exec Nat := do
  negAbsOvf (dstB op) (-sext40 ((← get).acc (srcB op)))
  done 1

def execAbs (op : Word) : Exec Nat := do
  let val := sext40 ((← get).acc (srcB op))
  negAbsOvf (dstB op) (if val.toInt < 0 then -val else val)
  done 1

/-- MPYA dst: T times the high word of A. -/
def execMpyaT (op : Word) : Exec Nat := do
  let s ← get
  setAcc (dstB op) (sext40 (frct s (mul16 s.t (hi16 s.a))))
  done 1

/-- SQUR A: the high word of A squared. -/
def execSqurA (op : Word) : Exec Nat := do
  let s ← get
  setAcc (dstB op) (sext40 (frct s (mul16 (hi16 s.a) (hi16 s.a))))
  done 1

/-- The first set bit at or below `i`, counting the zeros passed. -/
def leadingZeros (uv : Acc) : Nat → Nat
  | 0 => 0
  | i + 1 => if bitSet uv i then 0 else leadingZeros uv i + 1

/-- EXP: the number of redundant sign bits, minus 8. -/
def execExp (op : Word) : Exec Nat := do
  let val := sext40 ((← get).acc (dstB op))
  let uv := (if val.toInt < 0 then ~~~ val else val) &&& mask40
  let exp : Int := if val = 0 then 0
    else if val = -1 then 31
    else (leadingZeros uv 39 : Int) - 8
  modify fun s => { s with t := BitVec.ofInt 16 exp }
  done 1

/-- MAX: C is cleared when A wins. -/
def execMax (op : Word) : Exec Nat := do
  let s ← get
  let sa := sext40 s.a
  let sb := sext40 s.b
  let aIsMax := decide (sb.toInt < sa.toInt)
  setAcc (dstB op) (sext40 (if aIsMax then sa else sb))
  putSt0 St0.c (!aIsMax)
  done 1

/-- MIN: C is cleared when A wins. -/
def execMin (op : Word) : Exec Nat := do
  let s ← get
  let sa := sext40 s.a
  let sb := sext40 s.b
  let aIsMin := decide (sa.toInt < sb.toInt)
  setAcc (dstB op) (sext40 (if aIsMin then sa else sb))
  putSt0 St0.c (!aIsMin)
  done 1

/-- Rotate the low 32 bits left, `bitIn` coming in; C receives the bit that leaves. -/
def rotateLeft (op : Word) (bitIn : Bool) : Exec Nat := do
  let isB := dstB op
  let v : BitVec 32 := ((← get).acc isB).setWidth 32
  setAcc isB (((v <<< 1) ||| (BitVec.ofBool bitIn).setWidth 32).setWidth 64)
  putSt0 St0.c (bitSet v 31)
  done 1

/-- ROLTC: TC comes in. -/
def execRoltc (op : Word) : Exec Nat := do rotateLeft op (bitSet (← get).st0 St0.tc)

/-- ROL: C comes in. -/
def execRol (op : Word) : Exec Nat := do rotateLeft op (bitSet (← get).st0 St0.c)

/-- ROR: C comes in on bit 31. -/
def execRor (op : Word) : Exec Nat := do
  let s ← get
  let isB := dstB op
  let v : BitVec 32 := (s.acc isB).setWidth 32
  let c : BitVec 32 := (BitVec.ofBool (bitSet s.st0 St0.c)).setWidth 32
  setAcc isB (((v >>> 1) ||| (c <<< 31)).setWidth 64)
  putSt0 St0.c (bitSet v 0)
  done 1

/-- SUBC step on an accumulator: double, adding one when it is not negative. -/
def execDouble (op : Word) : Exec Nat := do
  let isB := dstB op
  let val := sext40 ((← get).acc isB)
  setAcc isB (sext40 (if 0 ≤ val.toInt then (val <<< 1) + 1 else val <<< 1))
  done 1

/-- NORM: shift by the signed 6-bit count in T; TC tells bits 39 and 38 apart. -/
def execNorm (op : Word) : Exec Nat := do
  let s ← get
  let val := sext40 (s.acc (srcB op))
  setAcc (dstB op) (sext40 (shiftAcc val (s.t.setWidth 6).toInt))
  putSt0 St0.tc (bitSet val 39 != bitSet val 38)
  done 1

/-- MACA / MASA T: bit 1 subtracts, bit 0 rounds. -/
def execMacaT (op : Word) : Exec Nat := do
  let s ← get
  let prod := frct s (mul16 s.t (hi16 s.a))
  let base := sext40 (s.acc (srcB op))
  let r := if bitSet op 1 then base - prod else base + prod
  let r := if bitSet op 0 then (r + 0x8000) &&& ~~~ 0xFFFF#64 else r
  setAcc (dstB op) (sext40 r)
  done 1

def execCmpl (op : Word) : Exec Nat := do
  setAcc (dstB op) (sext40 (~~~ (← get).acc (srcB op) &&& mask40))
  done 1

def execRnd (op : Word) : Exec Nat := do
  setAcc (dstB op) (sext40 ((← get).acc (srcB op) + 0x8000))
  done 1

def execAddAsm (op : Word) : Exec Nat := do
  let s ← get
  let sv := sext40 (shiftAcc (sext40 (s.acc (srcB op))) s.asmShift)
  setAcc (dstB op) (sext40 (s.acc (dstB op) + sv))
  done 1

def execSubAsm (op : Word) : Exec Nat := do
  let s ← get
  let sv := sext40 (shiftAcc (sext40 (s.acc (srcB op))) s.asmShift)
  setAcc (dstB op) (sext40 (s.acc (dstB op) - sv))
  done 1

def execLdAsm (op : Word) : Exec Nat := do
  let s ← get
  setAcc (dstB op) (sext40 (shiftAcc (sext40 (s.acc (srcB op))) s.asmShift))
  done 1

/-- CMPR: compare ARx with AR0, unsigned. -/
def execCmpr (op : Word) : Exec Nat := do
  let s ← get
  let x := s.ar (op.setWidth 3)
  let r := s.ar 0
  putSt0 St0.tc (match ((op >>> 8) &&& 3).toNat with
    | 0 => decide (x = r)
    | 1 => decide (x < r)
    | 2 => decide (r < x)
    | _ => decide (x ≠ r))
  done 1

def execAddShift (op : Word) : Exec Nat := do
  let s ← get
  let sv := shiftAcc (sext40 (s.acc (srcB op))) (shift5 op)
  let dv := sext40 (s.acc (dstB op))
  carryAdd40 dv sv
  setAcc (dstB op) (sext40 (dv + sv))
  done 1

def execSubShift (op : Word) : Exec Nat := do
  let s ← get
  let sv := shiftAcc (sext40 (s.acc (srcB op))) (shift5 op)
  let dv := sext40 (s.acc (dstB op))
  carrySub40 dv sv
  setAcc (dstB op) (sext40 (dv - sv))
  done 1

def execLdShift (op : Word) : Exec Nat := do
  setAcc (dstB op) (sext40 (shiftAcc (sext40 ((← get).acc (srcB op))) (shift5 op)))
  done 1

def execSfta (op : Word) : Exec Nat := do
  sftaExec op
  done 1

/-- LD #k3, ARP. -/
def execLdArp (op : Word) : Exec Nat := do
  modify fun s => setArp s (op.setWidth 3)
  done 1

/-- SFTC: shift left once when bits 31 and 30 agree and the value is not zero. -/
def execSftc (op : Word) : Exec Nat := do
  let isB := dstB op
  let val := sext40 ((← get).acc isB)
  if val ≠ 0 ∧ bitSet val 31 = bitSet val 30 then setAcc isB (sext40 (val <<< 1))
  done 1

/-- RSBX / SSBX on ST0 and ST1. -/
def execSt0Bit (v : Bool) (op : Word) : Exec Nat := do
  putSt0 (op &&& 0xF).toNat v
  done 1
def execSt1Bit (v : Bool) (op : Word) : Exec Nat := do
  putSt1 (op &&& 0xF).toNat v
  done 1

/-! ### Immediate operands (0xF0..0xF3) -/

/-- ADD / SUB / LD / AND / OR / XOR #lk, shift: bits 7..4 select the operation. The
first three take a signed immediate and the last three an unsigned one. -/
def execImm (op : Word) : Exec Nat := do
  let s ← get
  let op2 ← fetchAt 1
  let src := s.acc (srcB op)
  let shift := (op &&& 0xF).toNat
  let lkS := op2.signExtend 64 <<< shift
  let lkU := op2.setWidth 64 <<< shift
  let result ← match ((op >>> 4) &&& 0xF).toNat with
    | 0x0 => do carryAdd40 src lkS; pure (src + lkS)
    | 0x1 => do carrySub40 src lkS; pure (src - lkS)
    | 0x2 => pure lkS
    | 0x3 => pure (src &&& lkU)
    | 0x4 => pure (src ||| lkU)
    | 0x5 => pure (src ^^^ lkU)
    | _ => pure src
  setAcc (dstB op) (sext40 result)
  done 2

/-- The same operations with the immediate on the high word, and MPY / MAC #lk, as
the families 0xF0 and 0xF1 decode them: the logical results are stored as they are. -/
def execImm16 (op : Word) : Exec Nat := do
  let s ← get
  let op2 ← fetchAt 1
  let src := s.acc (srcB op)
  let lkS := op2.signExtend 64 <<< 16
  let lkU := op2.setWidth 64 <<< 16
  let prod := frct s (mul16 s.t op2)
  match (op &&& 0xF).toNat with
  | 0x0 => do carryAdd40 src lkS; setAcc (dstB op) (sext40 (src + lkS))
  | 0x1 => do carrySub40 src lkS; setAcc (dstB op) (sext40 (src - lkS))
  | 0x2 => setAcc (dstB op) (sext40 lkS)
  | 0x3 => setAcc (dstB op) (src &&& lkU)
  | 0x4 => setAcc (dstB op) (src ||| lkU)
  | 0x5 => setAcc (dstB op) (src ^^^ lkU)
  | 0x6 => setAcc (dstB op) (sext40 prod)
  | 0x7 => setAcc (dstB op) (sext40 (src + prod))
  | _ => pure ()
  done 2

/-- The families 0xF2 and 0xF3 sign-extend every result. -/
def execImm16Ext (op : Word) : Exec Nat := do
  let s ← get
  let op2 ← fetchAt 1
  let src := s.acc (srcB op)
  let lkS := op2.signExtend 64 <<< 16
  let lkU := op2.setWidth 64 <<< 16
  let result ← match (op &&& 0x7).toNat with
    | 0x0 => do carryAdd40 src lkS; pure (src + lkS)
    | 0x1 => do carrySub40 src lkS; pure (src - lkS)
    | 0x2 => pure lkS
    | 0x3 => pure (src &&& lkU)
    | 0x4 => pure (src ||| lkU)
    | 0x5 => pure (src ^^^ lkU)
    | 0x7 => pure (src + frct s (mul16 s.t op2))
    | _ => pure src
  setAcc (dstB op) (sext40 result)
  done 2

/-- AND / OR / XOR src, SHIFT, dst of 0xF0 and 0xF1: bits 6..5 select the operation. -/
def execLogic (op : Word) : Exec Nat := do
  let s ← get
  let shifted := sext40 (logicShifted (s.acc (srcB op)) (shift5 op))
  let first := sext40 (s.acc (dstB op))
  match ((op >>> 5) &&& 7).toNat with
  | 4 => setAcc (dstB op) (first &&& shifted)
  | 5 => setAcc (dstB op) (first ||| shifted)
  | 6 => setAcc (dstB op) (first ^^^ shifted)
  | 7 => sftlExec op
  | _ => pure ()
  done 1

/-- AND / OR / XOR src, SHIFT, dst of 0xF2 and 0xF3. -/
def execLogicExt (op : Word) : Exec Nat := do
  let s ← get
  let sh := logicShifted (s.acc (srcB op)) (shift5 op)
  let dstIn := s.acc (dstB op)
  match ((op >>> 5) &&& 7).toNat with
  | 4 => setAcc (dstB op) (sext40 (dstIn &&& sh))
  | 5 => setAcc (dstB op) (sext40 (dstIn ||| sh))
  | 6 => setAcc (dstB op) (sext40 (dstIn ^^^ sh))
  | _ => sftlExec op
  done 1

/-- An opcode the decoder passes over. -/
def execNop (_ : Word) : Exec Nat := done 1

end Qosmo.C54x
