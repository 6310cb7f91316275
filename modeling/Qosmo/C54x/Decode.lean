import Qosmo.C54x.Mem

/-!
# Qosmo.C54x.Decode

Operands and conditions (`c54x_decode.c`), and the monad instructions run in.

An instruction reads its context (`Ctx`), works on the `Cpu`, and ends by saying
how the sequencer goes on. `Flow` has one constructor for each way
`c54x_exec_one` touches the sequencing fields before it returns, IDLE apart. The
type of the code behind a test of the decoder (`Action`) records how much it can
do: most instructions only fall through and return the number of words they took,
some also change the flow of control, and IDLE alone stops the core.
-/

namespace Qosmo.C54x

/-- Instructions: a fixed context and the registers and memories. -/
abbrev Exec := ReaderT Ctx (StateM Cpu)

/-- How an instruction hands over to `c54x_run`. -/
inductive Flow where
  /-- `return n` with PC untouched: fall through over `n` words -/
  | next (n : Nat)
  /-- `s->pc = tgt; return 0` -/
  | goto (tgt : Word)
  /-- `s->delayed_pc = tgt; s->delay_slots = 2; return n` -/
  | delayed (tgt : Word) (n : Nat)
  /-- `s->rpt_count = count; s->rpt_active = true; s->pc += n; return 0` -/
  | rpt (count : Word) (n : Nat)
  /-- `s->rptb_active = true; return n` -/
  | rptb (n : Nat)
  /-- `s->rpt_active = false; s->delay_slots = 0; s->pc = tgt; return 0` -/
  | reset (tgt : Word)
  deriving DecidableEq, Repr

/-- How an execution ends. -/
inductive Outcome where
  | flow (f : Flow)
  /-- `s->idle = true; return 0` -/
  | idle
  deriving DecidableEq, Repr

inductive Action where
  /-- falls through over the words it returns -/
  | plain (f : Word → Exec Nat)
  /-- may move PC or arm a delayed transfer or a repeat -/
  | control (f : Word → Exec Flow)
  /-- IDLE -/
  | halt

/-- IDLE is skipped by the boot stub 0x8000..0x801F. -/
def inBootStub (pc : BitVec 32) : Bool := decide (0x8000 ≤ pc) && decide (pc < 0x8020)

def Action.run : Action → Word → Exec Outcome
  | .plain f, op => do return .flow (.next (← f op))
  | .control f, op => do return .flow (← f op)
  | .halt, _ => do return if inBootStub (← read).pc then .flow (.next 1) else .idle

/-- One test of the decoder: `if ((op & mask) == value) ...`. -/
structure Entry where
  mask : Word
  value : Word
  act : Action

/-- Does the opcode pass the test? -/
def Entry.hits (e : Entry) (op : Word) : Bool := op &&& e.mask == e.value

/-! ### Reading and writing -/

/-- `data_read(s, addr)`. -/
def rd (addr : Word) : Exec Word := do return dataRead (← get) addr

/-- `data_write(s, addr, v)`. -/
def wr (addr v : Word) : Exec Unit := do
  let c ← read
  modify fun s => dataWrite c s addr v

/-- `prog_fetch(s, s->pc + off)`. -/
def fetchAt (off : Nat) : Exec Word := do
  let c ← read
  return progFetch (← get) ((c.pc + BitVec.ofNat 32 off).setWidth 16)

/-- The 16-bit address of the executing instruction, plus `off`. -/
def pcPlus (off : Nat) : Exec Word := do
  let c ← read
  return (c.pc + BitVec.ofNat 32 off).setWidth 16

def setAcc (isB : Bool) (v : Acc) : Exec Unit :=
  modify fun s => if isB then { s with b := v } else { s with a := v }

def putSt0 (n : Nat) (v : Bool) : Exec Unit := modify fun s => { s with st0 := putBit s.st0 n v }
def putSt1 (n : Nat) (v : Bool) : Exec Unit := modify fun s => { s with st1 := putBit s.st1 n v }

/-- Decrement SP, then store: one push. -/
def push (v : Word) : Exec Unit := do
  modify fun s => { s with sp := s.sp - 1 }
  wr (← get).sp v

/-- Load, then increment SP: one pop. -/
def pop : Exec Word := do
  let v ← rd (← get).sp
  modify fun s => { s with sp := s.sp + 1 }
  return v

/-- `return consumed + s->lk_used`. -/
def done (consumed : Nat) : Exec Nat := do
  return consumed + (← get).lkUsed.toNat

/-! ### Operand addresses -/

/-- The sixteen indirect modes: the register after the access and the address
used. `step` is 1 for a word operand and 2 for a long one; `lk` is the word that
follows the opcode. -/
def indirect (mod : Nat) (step : Nat) (ar ar0 bk lk : Word) : Word × Word :=
  match mod with
  | 0x1 => (ar - BitVec.ofNat 16 step, ar)
  | 0x2 => (ar + BitVec.ofNat 16 step, ar)
  | 0x3 => (ar + BitVec.ofNat 16 step, ar + BitVec.ofNat 16 step)
  | 0x4 => (revcarry ar ar0 true, ar)
  | 0x5 => (ar - ar0, ar)
  | 0x6 => (ar + ar0, ar)
  | 0x7 => (revcarry ar ar0 false, ar)
  | 0x8 => (circRef ar (-step) bk, ar)
  | 0x9 => (circRef ar (-ar0.toInt) bk, ar)
  | 0xA => (circRef ar step bk, ar)
  | 0xB => (circRef ar ar0.toInt bk, ar)
  | 0xC => (ar, ar + lk)
  | 0xD => (ar + lk, ar + lk)
  | 0xE => (circRef ar lk.toInt bk, circRef ar lk.toInt bk)
  | 0xF => (ar, lk)
  | _ => (ar, ar)

/-- Bits 6..3 of the opcode select the mode. -/
def modOf (op : Word) : Nat := ((op >>> 3) &&& 0xF).toNat

/-- Direct addressing: relative to SP in compiler mode, to the data page otherwise. -/
def direct (s : Cpu) (op : Word) : Word :=
  let offset := op &&& 0x7F
  if bitSet s.st1 St1.cpl then s.sp + offset else (s.dp <<< 7) ||| offset

def indirectAccess (op : Word) (n : BitVec 3) (step : Nat) : Exec Word := do
  let s ← get
  let lk ← fetchAt 1
  let r := indirect (modOf op) step (s.ar n) (s.ar 0) s.bk lk
  modify fun s => { s.setAr n r.1 with lkUsed := s.lkUsed || decide (0xC ≤ modOf op) }
  return r.2

def setArp (s : Cpu) (n : BitVec 3) : Cpu :=
  { s with st0 := (s.st0 &&& ~~~ St0.arpMask) ||| (n.setWidth 16 <<< St0.arpShift) }

/-- `resolve_smem`. In compatibility mode AR0 stands for the register ARP names,
and any other register becomes the one ARP names. -/
def resolveSmem (op : Word) : Exec Word := do
  let s ← get
  if bitSet op 7 then
    let nar : BitVec 3 := op.setWidth 3
    let cmpt := bitSet s.st1 St1.cmpt
    let addr ← indirectAccess op (if cmpt && nar == 0 then s.arp else nar) 1
    if cmpt && nar != 0 then modify fun s => setArp s nar
    return addr
  else return direct s op

def resolveLmem (op : Word) : Exec Word := do
  if bitSet op 7 then indirectAccess op (op.setWidth 3) 2
  else return direct (← get) op

/-- `resolve_mmr`: the access is on page zero and the register is left there too. -/
def resolveMmr (op : Word) : Exec Word := do
  if !bitSet op 7 then return op &&& 0x7F
  let s ← get
  let nar : BitVec 3 := op.setWidth 3
  let cmpt := bitSet s.st1 St1.cmpt
  let n := if cmpt && nar == 0 then s.arp else nar
  if cmpt && nar != 0 then modify fun s => setArp s nar
  let addr := s.ar n &&& 0x7F
  let d : Word := match modOf op with
    | 0x1 => -1
    | 0x2 => 1
    | _ => 0
  modify fun s => s.setAr n (addr + d)
  return addr

/-- `c54x_par_postmod`: post-modification of a dual operand. -/
def parPostmod (n : BitVec 3) (mod : Nat) : Exec Unit :=
  modify fun s => match mod with
    | 1 => s.setAr n (s.ar n - 1)
    | 2 => s.setAr n (s.ar n + 1)
    | 3 => s.setAr n (circRef (s.ar n) (s.ar 0).toInt s.bk)
    | _ => s

/-- A dual operand: four bits, the mode in the high two and AR2..AR5 in the low two. -/
def resolveDual (f : Word) : Exec Word := do
  let n : BitVec 3 := (f &&& 3).setWidth 3 + 2
  let addr := (← get).ar n
  parPostmod n ((f >>> 2) &&& 3).toNat
  return addr

/-- `resolve_xmem`: bits 7..4. -/
def resolveXmem (op : Word) : Exec Word := resolveDual (op >>> 4)

/-- The second dual operand: bits 3..0. -/
def resolveYmem (op : Word) : Exec Word := resolveDual op

/-! ### Conditions -/

/-- The six accumulator tests a condition code can name in its low three bits. -/
def accTest (test : Nat) (acc : Int) : Option Bool :=
  match test with
  | 5 => some (decide (acc = 0))
  | 4 => some (decide (acc ≠ 0))
  | 3 => some (decide (acc < 0))
  | 7 => some (decide (acc ≤ 0))
  | 6 => some (decide (0 < acc))
  | 2 => some (decide (0 ≤ acc))
  | _ => none

/-- `c54x_cond_true`. The overflow tests read and clear bits 9 and 8 of ST0. -/
def condTrue (cc : Word) : Exec Bool := do
  let s ← get
  if cc &&& 0xFF = 0 then return true
  if bitSet cc 6 then
    let isB := bitSet cc 3
    let acc := (sext40 (s.acc isB)).toInt
    let ovBit := if isB then 9 else 8
    let ov := bitSet s.st0 ovBit
    if cc &&& 0x70 = 0x70 then
      modify fun s => { s with st0 := clearBit s.st0 ovBit }
      return ov
    if cc &&& 0x70 = 0x60 then
      modify fun s => { s with st0 := clearBit s.st0 ovBit }
      return !ov
    return (accTest (cc &&& 7).toNat acc).getD true
  let tc := bitSet s.st0 St0.tc
  let c := bitSet s.st0 St0.c
  return (cc &&& 0x30 != 0x30 || tc) && (cc &&& 0x30 != 0x20 || !tc) &&
    (cc &&& 0x0C != 0x0C || c) && (cc &&& 0x0C != 0x08 || !c) && cc &&& 0x03 != 0x03

end Qosmo.C54x
