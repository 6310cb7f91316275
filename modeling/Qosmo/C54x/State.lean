import Qosmo.Basic

/-!
# Qosmo.C54x.State

The state of the C54x DSP core (`C54xState`), cut in two along the line the
emulator itself draws:

* `Cpu` is what an instruction computes on: accumulators, registers, status
  words, memories. `c54x_exec_one`, `data_write` and the operand resolvers change
  nothing else.
* `Seq` is what `c54x_run` sequences with: the program counter, the pending
  delayed transfer, the two repeat mechanisms, the IDLE and running flags and the
  instruction counter.

An instruction only *reads* its program counter and the repeat flag, and says how
it wants to go on (`Qosmo.C54x.Outcome`). So every question about interrupts,
delay slots and repeats is a question about `Seq` and a handful of outcomes,
whatever the instruction computed.
-/

namespace Qosmo.C54x

/-- An accumulator: 40 bits kept in an `int64_t`. -/
abbrev Acc := BitVec 64

/-! ### Status bits -/

namespace St0
def ovb : Nat := 9
def ova : Nat := 10
def c : Nat := 11
def tc : Nat := 12
def arpShift : Nat := 13
def arpMask : Word := 0xE000
def dpMask : Word := 0x01FF
end St0

namespace St1
def asmMask : Word := 0x001F
def cmpt : Nat := 5
def frct : Nat := 6
def c16 : Nat := 7
def sxm : Nat := 8
def ovm : Nat := 9
def intm : Nat := 11
def cpl : Nat := 14
def braf : Nat := 15
end St1

namespace Pmst
def ovly : Nat := 5
def iptrShift : Nat := 7
end Pmst

namespace Tcr
def tddrMask : Word := 0x000F
def tss : Nat := 4
def trb : Nat := 5
def pscShift : Nat := 6
def pscMask : Word := 0x03C0
end Tcr

def setBit (r : Word) (n : Nat) : Word := r ||| BitVec.twoPow 16 n

def clearBit (r : Word) (n : Nat) : Word := r &&& ~~~ BitVec.twoPow 16 n

/-- Raise or lower a status bit. -/
def putBit (r : Word) (n : Nat) (v : Bool) : Word := if v then setBit r n else clearBit r n

@[simp] theorem bitSet_setBit_self (r : Word) (n : Nat) (hn : n < 16) :
    bitSet (setBit r n) n := by
  simp [bitSet, setBit, hn]

@[simp] theorem bitSet_clearBit_self (r : Word) (n : Nat) : bitSet (clearBit r n) n = false := by
  by_cases hn : n < 16 <;> simp [bitSet, clearBit, hn]

/-! ### The two halves of the core -/

/-- What instructions compute on. -/
structure Cpu where
  a : Acc
  b : Acc
  ar : BitVec 3 → Word
  t : Word
  trn : Word
  sp : Word
  bk : Word
  brc : Word
  rsa : Word
  rea : Word
  st0 : Word
  st1 : Word
  pmst : Word
  imr : Word
  ifr : Word
  xpc : Word
  timerPsc : Word
  /-- the next READA/MVPD source while a repeat is running -/
  mvpdSrc : Word
  /-- RPT just armed: the repeated access starts from its base address -/
  rptFresh : Bool
  /-- the coefficient pointer FIRS keeps while it is repeated (`_fpm`) -/
  firsPm : Word
  /-- the operand took an extra `lk` word -/
  lkUsed : Bool
  prog : BitVec 18 → Word
  data : Word → Word
  /-- the window shared with the ARM, once it is wired -/
  apiRam : Option (BitVec 13 → Word)
  /-- the opcode fetched last (`s_last_run_op`) and the one before (`g_prev_op`) -/
  lastRunOp : Word
  prevOp : Word
  /-- TC was set by CMPM/BITF and not touched since (`g_tc_fiable`) -/
  tcFiable : Bool
  /-- measurement windows already taken from the radio -/
  apmServed : Nat

/-- What `c54x_run` sequences with. -/
structure Seq where
  pc : BitVec 32
  rptCount : Word
  rptActive : Bool
  rptbActive : Bool
  delayedPc : Word
  delaySlots : BitVec 8
  running : Bool
  idle : Bool
  cycles : BitVec 64
  insnCount : BitVec 32

/-- The DSP core. -/
structure State extends Cpu, Seq

/-- `sext40`: bit 39 is the sign. -/
def sext40 (v : Acc) : Acc := (v.setWidth 40).signExtend 64

namespace Cpu

def arp (s : Cpu) : BitVec 3 := (s.st0 >>> St0.arpShift).setWidth 3

def dp (s : Cpu) : Word := s.st0 &&& St0.dpMask

/-- `asm_shift(s)`: ASM as a signed 5-bit number. -/
def asmShift (s : Cpu) : Int := (s.st1.setWidth 5).toInt

def acc (s : Cpu) (isB : Bool) : Acc := if isB then s.b else s.a

def setAr (s : Cpu) (n : BitVec 3) (v : Word) : Cpu :=
  { s with ar := Function.update s.ar n v }

/-- Interrupts are masked globally. -/
def intm (s : Cpu) : Bool := bitSet s.st1 St1.intm

end Cpu

/-- The address of the vector of interrupt `vec`: IPTR selects a page of 128 words,
with four words per vector. -/
def vectorAt (pmst : Word) (vec : Nat) : BitVec 32 :=
  BitVec.ofNat 32 ((pmst >>> Pmst.iptrShift).toNat * 0x80 + vec * 4)

def Cpu.vector (s : Cpu) (vec : Nat) : BitVec 32 := vectorAt s.pmst vec

end Qosmo.C54x
