import Qosmo.C54x.Irq
import Qosmo.Lib.Run

/-!
# Qosmo.C54x.Run

The main loop `c54x_run`, one turn at a time, and the core as a machine.

A turn (`pass`) runs in the source's order: the fast-forward over the empty
dispatcher loop, the replay of a pending interrupt, the instruction itself (with
the level check in front), the overflow pass, the single-instruction repeat, the
PC advance, the timer, the delay slots, the block repeat. `c54x_run` may return to
its caller after any turn, so requests of the peripherals, stores of the ARM and of
the DMA into the memories, and resets come between two turns.
-/

namespace Qosmo.C54x

open State

/-! ### Applying an outcome -/

/-- What `c54x_exec_one` leaves in the sequencing fields, and the word count it
returns. -/
def applyFlow (q : Seq) : Flow → Seq × Nat
  | .next n => (q, n)
  | .goto tgt => ({ q with pc := tgt.setWidth 32 }, 0)
  | .delayed tgt n => ({ q with delayedPc := tgt, delaySlots := 2 }, n)
  | .rpt count n =>
    ({ q with rptCount := count, rptActive := true, pc := q.pc + BitVec.ofNat 32 n }, 0)
  | .rptb n => ({ q with rptbActive := true }, n)
  | .reset tgt => ({ q with rptActive := false, delaySlots := 0, pc := tgt.setWidth 32 }, 0)

/-- The same, IDLE included. -/
def applyOutcome (q : Seq) : Outcome → Seq × Nat
  | .flow f => applyFlow q f
  | .idle => ({ q with idle := true }, 0)

def execute (bus : Bus) (s : State) (op : Word) : State × Nat :=
  let r := execOp op (s.ctx bus) s.toCpu
  let q := applyOutcome s.toSeq r.1
  ({ toCpu := r.2, toSeq := q.1 }, q.2)

/-! ### Before the instruction -/

/-- The empty dispatcher loops of the firmware. -/
def inDispatcher (pc : BitVec 32) : Bool :=
  (decide (0xE9AC ≤ pc) && decide (pc ≤ 0xE9B7)) || (decide (0xCC62 ≤ pc) && decide (pc ≤ 0xCC6F))

/-- No task is posted in either write page. -/
def noTask (s : Cpu) : Bool :=
  [0x0800, 0x0802, 0x0804, 0x0807, 0x0814, 0x0816, 0x0818, 0x081B].all fun a => s.data a == 0

def idleFastForward (s : State) : Bool :=
  inDispatcher s.pc && noTask s.toCpu && !(!s.intm && s.pending != 0)

/-- The word the firmware expects at 0x435B is seeded when 0xA4E4 is reached. -/
def seed435b (s : State) : State :=
  if s.pc.setWidth 16 = (0xA4E4 : Word) ∧ s.data 0x435B = 0 then
    { s with toCpu := setData s.toCpu 0x435B 0x52ED }
  else s

/-- The opcodes that leave a TC set by CMPM or BITF trustworthy: the read-modify-
write instructions, ST and STM except to ST0. -/
def keepsTc (op : Word) : Bool :=
  let h := op &&& 0xFF00
  (decide (0x6800 ≤ h) && decide (h ≤ 0x6B00)) || h == 0x7600 ||
    (h == 0x7700 && op &&& 0xFF != 0x06)

/-- Shift the history of fetched opcodes and update `g_tc_fiable`. -/
def noteOp (s : Cpu) (op : Word) : Cpu :=
  let prev := s.lastRunOp
  { s with
    lastRunOp := op
    prevOp := prev
    tcFiable := if prev &&& 0xFE00 = 0x6000 then true
      else if keepsTc prev then s.tcFiable else false }

/-! ### After the instruction -/

/-- Overflow of one accumulator that the instruction changed. -/
def overflowAcc (isB : Bool) (before : Acc) (s : Cpu) : Cpu :=
  let v := sext40 (s.acc isB)
  if s.acc isB = before ∨ v = sat32 v then s
  else
    let s := { s with st0 := setBit s.st0 (ovBit isB) }
    if bitSet s.st1 St1.ovm then
      if isB then { s with b := sat32 v } else { s with a := sat32 v }
    else s

/-- The overflow pass (`CALYPSO_C54X_OVM`). -/
def overflowPass (before : Cpu) (s : Cpu) : Cpu :=
  if bitSet s.st1 St1.c16 then s
  else overflowAcc true before.b (overflowAcc false before.a s)

def loadTimer (s : State) (tim : Word) : State :=
  { s with toCpu := { setData s.toCpu timAddr tim with
      timerPsc := s.data tcrAddr &&& Tcr.tddrMask } }

/-- The on-chip timer: it counts unless TSS stops it, and raises TINT when TIM and
the prescaler are both down to zero. -/
def timer (bus : Bus) (s : State) : State × Option Taken :=
  if bitSet (s.data tcrAddr) Tcr.tss then (s, none)
  else if s.timerPsc = 0 then
    if s.data timAddr = 0 then interruptEx bus (loadTimer s (s.data prdAddr)) 19 3
    else (loadTimer s (s.data timAddr - 1), none)
  else ({ s with timerPsc := s.timerPsc - 1 }, none)

/-- Count the delay-slot words; the transfer happens when none is left. -/
def countSlots (dsBefore : BitVec 8) (consumed : Nat) (q : Seq) : Seq :=
  if q.delaySlots = 0 ∨ dsBefore = 0 then q
  else
    let wexec := if 0 < consumed then consumed else 1
    if wexec < q.delaySlots.toNat then
      { q with delaySlots := q.delaySlots - BitVec.ofNat 8 wexec }
    else { q with delaySlots := 0, pc := q.delayedPc.setWidth 32 }

/-- The instruction was the last of a block and fell through. -/
def blockEnd (execPc pcSeq : Word) (consumed : Nat) (s : State) : Bool :=
  decide (0 < consumed) && s.pc.setWidth 16 == pcSeq && decide (execPc ≤ s.rea) &&
    decide (s.rea < s.pc.setWidth 16)

/-- Go round the block again, or leave it. -/
def blockRepeat (execPc pcSeq : Word) (consumed : Nat) (s : State) : State :=
  if s.rptbActive && !s.rptActive && blockEnd execPc pcSeq consumed s then
    if s.brc ≠ 0 then { s with brc := s.brc - 1, pc := s.rsa.setWidth 32 }
    else { s with rptbActive := false, st1 := clearBit s.st1 St1.braf }
  else s

/-- Advance PC over the words taken; PC is 16 bits wide. -/
def advance (consumed : Nat) (s : State) : State :=
  { s with pc := (s.pc + BitVec.ofNat 32 consumed) &&& 0xFFFF }

/-- What follows the instruction when it is not repeated (again). -/
def complete (bus : Bus) (execPc : Word) (dsBefore : BitVec 8) (consumed : Nat) (s : State) :
    State × Option Taken :=
  let r := timer bus (advance consumed s)
  let pcSeq := r.1.pc.setWidth 16
  let s := { r.1 with toSeq := countSlots dsBefore consumed r.1.toSeq }
  let s := blockRepeat execPc pcSeq consumed s
  ({ s with cycles := s.cycles + 1, insnCount := s.insnCount + 1 }, r.2)

/-- The single-instruction repeat, then the rest of the turn. -/
def repeatOrComplete (bus : Bus) (execPc : Word) (dsBefore : BitVec 8) (rptWas : Bool)
    (consumed : Nat) (s : State) : State × Option Taken :=
  if s.rptActive && !s.idle then
    if !rptWas then ({ s with cycles := s.cycles + 1 }, none)
    else if s.rptCount ≠ 0 then
      ({ s with rptCount := s.rptCount - 1, cycles := s.cycles + 1 }, none)
    else complete bus execPc dsBefore consumed { s with rptActive := false }
  else complete bus execPc dsBefore consumed s

/-! ### One turn -/

def opAt (s : State) : Word := progFetch s.toCpu (s.pc.setWidth 16)

/-- What `c54x_run` does between the replay and the instruction. -/
def prepare (s : State) : State :=
  let s := seed435b s
  { s with toCpu := noteOp s.toCpu (opAt s) }

/-- `c54x_exec_one`: the level check, and the instruction when it took nothing. An
interrupt taken by the level check counts as one word. -/
def execOne (g : Gates) (bus : Bus) (s : State) : State × Nat × Obs :=
  let lc := levelCheck g bus s
  match lc.2 with
  | some t => (lc.1, 1, .taken t)
  | none =>
    let e := execute bus lc.1 (opAt lc.1)
    (e.1, e.2, .exec lc.1.pc (opAt lc.1))

def execSettled (g : Gates) (bus : Bus) (s : State) : State × Nat × Obs :=
  let r := execOne g bus s
  ({ r.1 with toCpu := overflowPass s.toCpu r.1.toCpu }, r.2)

def instruction (g : Gates) (bus : Bus) (s : State) : State × List Obs :=
  let s := prepare s
  let r := execSettled g bus s
  let f := repeatOrComplete bus (s.pc.setWidth 16) s.delaySlots s.rptActive r.2.1 r.1
  (f.1, r.2.2 :: (f.2.map Obs.taken).toList)

/-- The next turn executes something: the core runs, is not in IDLE, and is not in an
empty dispatcher loop. -/
def State.executes (s : State) : Bool := s.running && !s.idle && !idleFastForward s

/-- One turn of `c54x_run`; nothing happens when the core is stopped or in IDLE. -/
def pass (g : Gates) (bus : Bus) (s : State) : State × List Obs :=
  if !s.running || s.idle then (s, [])
  else if idleFastForward s then
    ({ s with cycles := s.cycles + 8, insnCount := s.insnCount + 8 }, [])
  else
    let r := replay bus s
    let i := instruction g bus r.1
    (i.1, (r.2.map Obs.taken).toList ++ i.2)

/-! ### Reset -/

/-- The register snapshot of a dump (`calypso_dsp.Registers.bin`), by MMR number. -/
abbrev Snapshot := BitVec 5 → Word

/-- The register values after reset, before any snapshot. -/
def resetAr (n : BitVec 3) : Word :=
  match n.toNat with
  | 0 => 0x5AAD
  | 1 => 0x005F
  | 2 => 0x0813
  | 3 => 0x0014
  | 4 => 0x0003
  | 5 => 0x0014
  | _ => 0

def accOf (guard high low : Word) : Acc :=
  ((guard &&& 0xFF).setWidth 64 <<< 32) ||| (high.setWidth 64 <<< 16) ||| low.setWidth 64

def applySnapshot (s : Cpu) (r : Snapshot) : Cpu :=
  { s with
    imr := r 0x00, ifr := r 0x01, st0 := r 0x06, st1 := r 0x07
    a := accOf (r 0x0A) (r 0x09) (r 0x08), b := accOf (r 0x0D) (r 0x0C) (r 0x0B)
    t := r 0x0E, trn := r 0x0F
    ar := fun n => r (n.setWidth 5 + 0x10)
    sp := r 0x18, bk := r 0x19, brc := r 0x1A, rsa := r 0x1B, rea := r 0x1C, pmst := r 0x1D }

/-- The registers `c54x_reset` sets. -/
def resetRegs (s : Cpu) : Cpu :=
  { s with
    a := 0, b := 0, ar := resetAr, t := 0, trn := 0, sp := 0x1100, bk := 0xFFF6
    brc := 0, rsa := 0, rea := 0, st0 := 0x181F, st1 := 0x2900, pmst := 0xFFA8
    imr := 0x52FD, ifr := 0, xpc := 0 }

/-- Words 0x0080..0x27FF, which reset fills from the ROM at 0x7080. -/
def inBootCopy (addr : Word) : Bool := decide (0x0080 ≤ addr) && decide (addr < 0x2800)

/-- The boot copy into data memory and into the shared window, and the boot stubs
at 0x0000..0x007F of program memory. -/
def resetMem (s : Cpu) : Cpu :=
  let rom (addr : Word) : Word := s.prog (addr.setWidth 18 + 0x7000)
  let timerRegs := Function.update (Function.update (Function.update s.data
    tcrAddr 0x0010) timAddr 0xFFFF) prdAddr 0xFFFF
  { s with
    timerPsc := 0
    data := fun addr => if inBootCopy addr then rom addr else timerRegs addr
    apiRam := s.apiRam.map fun _ off => rom (off.setWidth 16 + 0x0800)
    prog := fun i => if i < 2 then 0xFC00 else if i < 0x80 then 0xF4E4 else s.prog i }

/-- `c54x_init`: everything zero, with a program memory loaded. -/
def init (prog : BitVec 18 → Word) : State :=
  { a := 0, b := 0, ar := fun _ => 0, t := 0, trn := 0, sp := 0, bk := 0
    brc := 0, rsa := 0, rea := 0, st0 := 0, st1 := 0, pmst := 0, imr := 0, ifr := 0, xpc := 0
    timerPsc := 0, mvpdSrc := 0, rptFresh := false, firsPm := 0, lkUsed := false
    prog := prog, data := fun _ => 0, apiRam := none
    lastRunOp := 0, prevOp := 0, tcFiable := false, apmServed := 0
    pc := 0, rptCount := 0, rptActive := false, rptbActive := false
    delayedPc := 0, delaySlots := 0, running := false, idle := false
    cycles := 0, insnCount := 0 }

/-- `c54x_reset`. A pending delayed transfer is not cancelled. -/
def reset (regs : Option Snapshot) (s : State) : State :=
  let cpu := resetRegs s.toCpu
  let cpu := match regs with
    | some r => applySnapshot cpu r
    | none => cpu
  let cpu := resetMem cpu
  { s with
    toCpu := cpu
    rptActive := false, rptbActive := false, idle := false, running := true
    cycles := 0, insnCount := 0
    pc := cpu.vector 0 }

/-! ### Small programs, for runs on concrete values -/

/-- A program placed at the reset vector 0xFF80, NOP everywhere else. -/
def romOf (code : List Word) (i : BitVec 18) : Word :=
  if 0xFF80 ≤ i then code.getD (i - 0xFF80).toNat 0xF495 else 0xF495

def boot (code : List Word) : State := reset none (init (romOf code))

def Bus.quiet : Bus :=
  { apm := fun _ => 0, airDpm := id, portw := fun _ _ => 0, portr := fun _ => none, dmaLine := false }

/-! ### The core as a machine -/

inductive Event where
  /-- a turn of `c54x_run` -/
  | pass (bus : Bus)
  /-- `c54x_interrupt_ex` from a peripheral -/
  | request (bus : Bus) (vec bit : Nat)
  /-- `c54x_wake` -/
  | wake
  /-- the ARM, the DMA or the radio front end stores into data memory -/
  | poke (addr v : Word)
  /-- `c54x_reset` -/
  | reset (regs : Option Snapshot)

def step (g : Gates) (s : State) : Event → State × List Obs
  | .pass bus => pass g bus s
  | .request bus vec bit =>
    let r := interruptEx bus s vec bit
    (r.1, (r.2.map Obs.taken).toList)
  | .wake => ({ s with idle := false }, [])
  | .poke addr v =>
    ({ s with toCpu := if inApi addr then setApi s.toCpu addr v else setData s.toCpu addr v }, [])
  | .reset regs => (reset regs s, [])

def core (g : Gates) : Machine State Event Obs := ⟨step g⟩

@[simp] theorem core_step (g : Gates) (s : State) (e : Event) :
    (core g).step s e = step g s e := rfl

/-! ### Reading a trace -/

def executions (os : List Obs) : List (BitVec 32 × Word) := os.filterMap fun o => match o with
  | .exec pc op => some (pc, op)
  | .taken _ => none

@[simp] theorem executions_exec (pc : BitVec 32) (op : Word) (os : List Obs) :
    executions (.exec pc op :: os) = (pc, op) :: executions os := rfl
@[simp] theorem executions_taken (o : Option Taken) : executions (o.map Obs.taken).toList = [] := by
  cases o <;> rfl
@[simp] theorem executions_append (os os' : List Obs) :
    executions (os ++ os') = executions os ++ executions os' := List.filterMap_append

def hasEntry (p : Taken → Bool) (os : List Obs) : Bool := os.any fun o => match o with
  | .taken t => p t
  | .exec _ _ => false

theorem exists_of_hasEntry (p : Taken → Bool) (os : List Obs) (h : hasEntry p os) :
    ∃ t, Obs.taken t ∈ os ∧ p t := by
  obtain ⟨o, ho, hp⟩ := List.any_eq_true.mp h
  cases o with
  | taken t => exact ⟨t, ho, hp⟩
  | exec pc op => cases hp

end Qosmo.C54x
