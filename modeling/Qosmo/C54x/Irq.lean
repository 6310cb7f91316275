import Qosmo.C54x.Exec.Table

/-!
# Qosmo.C54x.Irq

The ways into an interrupt service routine:

* `levelCheck` (`c54x_irq_level_check`), made by `c54x_exec_one` before each fetch;
* `replay`, made by `c54x_run` before each instruction;
* `interruptEx` (`c54x_interrupt_ex`), called by the peripherals between two
  instructions and by the on-chip timer inside one. It has two branches, for a
  running core and for one stopped by IDLE.

All four end in the same entry sequence (`enter`); they differ in the guards in
front of it and in the frame they push. Every entry leaves a record (`Taken`) of
the state it was made in.
-/

namespace Qosmo.C54x

/-- What the environment variables outside the default set can still change. -/
structure Gates where
  /-- `CALYPSO_C54X_IRQ_LEVEL`, or `CALYPSO_DSP=c54x` -/
  irqLevel : Bool

/-- The way an interrupt was entered. -/
inductive Path where
  | level
  | replay
  | request
  | wake
  deriving DecidableEq, Repr

/-- One interrupt entry. -/
structure Taken where
  path : Path
  vec : Nat
  bit : Nat
  /-- the core when the entry was decided -/
  pre : State

/-- What a step of the core shows: the interrupts entered, the instructions
executed. -/
inductive Obs where
  | taken (t : Taken)
  | exec (pc : BitVec 32) (op : Word)

namespace State

/-- The context the core gives to an instruction or to a frame push. -/
def ctx (bus : Bus) (s : State) : Ctx :=
  { bus := bus, pc := s.pc, insnCount := s.insnCount, rptActive := s.rptActive }

def pending (s : State) : Word := s.ifr &&& s.imr

end State

/-- `__builtin_ctz`: the lowest set bit. -/
def ctz (w : Word) : Option Nat := (List.range 16).find? (bitSet w ·)

/-! ### The entry sequence -/

def pushWord (c : Ctx) (s : Cpu) (v : Word) : Cpu :=
  dataWrite c { s with sp := s.sp - 1 } (s.sp - 1) v

/-- The frame: the return address, then XPC, always or only when it is not zero. -/
def pushFrame (c : Ctx) (s : Cpu) (ret : Word) (always : Bool) : Cpu :=
  let s := pushWord c s ret
  if always || s.xpc != 0 then pushWord c s s.xpc else s

/-- Clear the request, push the frame, mask interrupts, go to the vector on page 0. -/
def enter (c : Ctx) (s : State) (vec bit : Nat) (ret : Word) (always : Bool) : State :=
  let cpu := pushFrame c { s.toCpu with ifr := clearBit s.ifr bit } ret always
  let cpu := { cpu with st1 := setBit cpu.st1 St1.intm, xpc := 0 }
  { s with toCpu := cpu, pc := cpu.vector vec }

/-! ### Level check -/

/-- The Rhea DMA interrupt is a level: it sets its request again at each check. -/
def dmaLevel (bus : Bus) (s : State) : State :=
  if bus.dmaLine then { s with ifr := setBit s.ifr 14 } else s

/-- `c54x_irq_level_check`: the interrupt taken, if any. -/
def levelBit (s : State) : Option Nat :=
  if s.intm || s.delaySlots != 0 then none
  else if s.pmst >>> Pmst.iptrShift = 0x1FF then none
  else ctz s.pending

def levelCheck (g : Gates) (bus : Bus) (s : State) : State × Option Taken :=
  if g.irqLevel then
    let s := dmaLevel bus s
    match levelBit s with
    | some b => (enter (s.ctx bus) s (b + 16) b (s.pc.setWidth 16) false,
        some ⟨.level, b + 16, b, s⟩)
    | none => (s, none)
  else (s, none)

/-! ### Replay -/

/-- The request `c54x_run` serves before an instruction. -/
def replayBit (s : State) : Option Nat := if s.intm then none else ctz s.pending

def replay (bus : Bus) (s : State) : State × Option Taken :=
  match replayBit s with
  | some b => (enter (s.ctx bus) s (b + 16) b (s.pc.setWidth 16) true,
      some ⟨.replay, b + 16, b, s⟩)
  | none => (s, none)

/-! ### Requests -/

def interruptEx (bus : Bus) (s : State) (vec bit : Nat) : State × Option Taken :=
  if 32 ≤ vec ∨ 16 ≤ bit then (s, none)
  else
    let unmasked := bitSet s.imr bit
    let r := { s with ifr := setBit s.ifr bit }
    if s.idle then
      let r := { r with idle := false }
      if unmasked then
        (enter (s.ctx bus) r vec bit ((s.pc + 1).setWidth 16) true, some ⟨.wake, vec, bit, s⟩)
      else ({ r with pc := s.pc + 1 }, none)
    else if !s.intm && unmasked && s.delaySlots == 0 then
      (enter (s.ctx bus) r vec bit (s.pc.setWidth 16) true, some ⟨.request, vec, bit, s⟩)
    else (r, none)

end Qosmo.C54x
