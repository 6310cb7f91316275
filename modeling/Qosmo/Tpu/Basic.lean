import Qosmo.Basic

/-!
# Qosmo.Tpu.Basic

The time processing unit (`hw/arm/calypso/calypso_tpu.c`): a sequencer that runs a
scenario out of its RAM and stops wherever the scenario waits for a later frame.

`seq_run` goes through the words from its cursor on. AT and WAIT move the position in the
frame, in quarter bits; where that passes the end of the frame, the loop returns with
`wait_frames` set, and `calypso_tpu_sequencer_tick`, called once per frame, takes it up
again when the count is down. The loop is modelled with fuel and answers `none` when the
fuel is out; `Qosmo.Tpu.Time` shows that it never is.

What a MOVE to the serial port of the radio (`calypso_tsp.c`) does there is left out: the
model shows the call, with the position `calypso_tpu_qbit` answers during it.
-/

namespace Qosmo.Tpu

/-- `CALYPSO_TPU_RAM_SIZE / 2`. -/
def ramWords : Nat := 1024

def qbitsPerTdma : Nat := 5000

/-! ### Words of a scenario -/

def opAt : Word := 1
def opOffset : Word := 2
def opSynchro : Word := 3
def opMove : Word := 4
def opWait : Word := 5

def opcode (insn : Word) : Word := (insn >>> 13) &&& 0x7
def payload (insn : Word) : Word := insn &&& 0x1FFF

/-- The address and the data of a MOVE. -/
def moveAddr (insn : Word) : Byte := (insn &&& 0x1F).setWidth 8
def moveData (insn : Word) : Byte := ((insn >>> 5) &&& 0xFF).setWidth 8

def tpuOffset : Nat := 0x000C
def tpuSynchro : Nat := 0x000E

/-- `calypso_tsp_owns_addr`: CTRL1, CTRL2, the four TX registers, ACT and SET. -/
def tspOwnsAddr (addr : Byte) : Bool :=
  addr ∈ ([0x00, 0x01, 0x04, 0x03, 0x02, 0x05, 0x06, 0x07, 0x09, 0x0A, 0x0B] : List Byte)

/-! ### The sequencer -/

/-- `static struct { … } seq`; `tpu_regs` is a pointer and may be null. -/
structure Sequencer where
  insns : Nat → Word
  len : Nat
  cursor : Nat
  qbit : Nat
  waitFrames : Nat
  active : Bool
  tpuRegs : Option (Nat → Word)

/-- A call of `calypso_tsp_move`, and the position in the frame it was made at. -/
structure Move where
  addr : Byte
  data : Byte
  fn : BitVec 32
  qbit : Nat
  deriving Repr, DecidableEq

/-- How a turn of the loop of `seq_run` ends: with the next one, or with a return. -/
inductive Turn
  | again (s : Sequencer) (moves : List Move)
  | stop (s : Sequencer)

namespace Sequencer

/-- `seq.cursor++`. -/
def next (s : Sequencer) : Sequencer := { s with cursor := s.cursor + 1 }

/-- A register of the unit is loaded. -/
def setReg (s : Sequencer) (offset : Nat) (v : Word) : Sequencer :=
  { s with tpuRegs := s.tpuRegs.map fun regs => Function.update regs (offset / 2) v }

/-- The body of the loop of `seq_run`. -/
def turn (fn : BitVec 32) (s : Sequencer) : Turn :=
  let insn := s.insns s.cursor
  let x := (payload insn).toNat
  if insn = 0x0000 then
    -- two zero words end a scenario, but the first word of the RAM never does
    if 0 < s.cursor ∧ (s.len ≤ s.cursor + 1 ∨ s.insns (s.cursor + 1) = 0x0000) then
      .stop { s with active := false }
    else .again s.next []
  else if opcode insn = opAt then
    if s.qbit < x then .again { s.next with qbit := x } []
    else .stop { s.next with qbit := x, waitFrames := 1 }
  else if opcode insn = opWait then
    if s.qbit + x < qbitsPerTdma then .again { s.next with qbit := s.qbit + x } []
    else
      .stop { s.next with
        waitFrames := (s.qbit + x) / qbitsPerTdma, qbit := (s.qbit + x) % qbitsPerTdma }
  else if opcode insn = opSynchro ∨ opcode insn = opOffset then
    let offset := if opcode insn = opSynchro then tpuSynchro else tpuOffset
    .again (s.setReg offset (payload insn)).next []
  else if opcode insn = opMove then
    .again s.next
      (if tspOwnsAddr (moveAddr insn) then [⟨moveAddr insn, moveData insn, fn, s.qbit⟩] else [])
  else .again s.next []

/-- `seq_run`, in at most `fuel` tests of the loop. -/
def seqRun (fn : BitVec 32) : Nat → Sequencer → Option (Sequencer × List Move)
  | 0, _ => none
  | fuel + 1, s =>
    if s.active = true ∧ s.cursor < s.len then
      match s.turn fn with
      | .stop s' => some (s', [])
      | .again s' moves => (seqRun fn fuel s').map fun r => (r.1, moves ++ r.2)
    else some ({ s with active := false }, [])

/-- `calypso_tpu_run_scenario`: nothing of the previous scenario is left. -/
def runScenario (tpuRam : Nat → Word) (fn : BitVec 32) (tpuRegs : Option (Nat → Word)) :
    Option (Sequencer × List Move) :=
  seqRun fn (ramWords + 1)
    { insns := tpuRam
      len := ramWords
      cursor := 0
      qbit := 0
      waitFrames := 0
      active := true
      tpuRegs := tpuRegs }

def sequencerTick (s : Sequencer) (fn : BitVec 32) : Option (Sequencer × List Move) :=
  if s.active = false ∨ s.waitFrames = 0 then some (s, [])
  else
    let s' := { s with waitFrames := s.waitFrames - 1 }
    if 0 < s'.waitFrames then some (s', []) else seqRun fn (ramWords + 1) s'

/-- A scenario started and then ticked once per frame: the sequencer after the `k`-th
tick and the calls that tick made, the start being the 0-th; `fn k` is the frame number
of the `k`-th. -/
def ticked (tpuRam : Nat → Word) (tpuRegs : Option (Nat → Word)) (fn : Nat → BitVec 32) :
    Nat → Option (Sequencer × List Move)
  | 0 => runScenario tpuRam (fn 0) tpuRegs
  | k + 1 => (ticked tpuRam tpuRegs fn k).bind fun r => r.1.sequencerTick (fn (k + 1))

end Sequencer

end Qosmo.Tpu
