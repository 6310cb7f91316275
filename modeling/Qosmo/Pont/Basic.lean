import Qosmo.Inth
import Qosmo.Lib.Queue

/-!
# Qosmo.Pont.Basic

The bridge (`pont`) between QEMU and the out-of-process C54x, in lock-step
two-phase mode: `tdma_tick` and `pont_echange` of `hw/arm/calypso/calypso_trx.c`,
the message protocol of `calypso_dsp_pont.h`, the interrupt controller, and the
DSP as the party at the other end.

One frame goes: TICK to the DSP; the DSP plays its frame ISR and answers
DONE|PHASE_A; QEMU raises the TPU frame interrupt; the ARM serves it; GO to the
DSP; the DSP plays the burst and answers the final DONE.

What is assumed of the surroundings:

* the socket stays connected and keeps the order of its messages; a send succeeds;
* the DSP answers each TICK with one final DONE, after one DONE|PHASE_A and a GO
  where the TICK asks for two phases (`Pont.dspStep`); it takes arbitrarily long;
* `CALYPSO_PONT_LOCKSTEP=1`, every other gate at its default.

Some fields are history variables: no function of the source reads them. TICKs are
numbered (`ticks`), the DSP's answers carry the number of the TICK they answer, and
`inService`, `fresh`, `served` follow what the ARM does with the frame interrupt.
-/

namespace Qosmo

/-! ### Messages -/

/-- Messages from QEMU to the DSP (PONT_TICK, PONT_GO, PONT_DCCH). A TICK carries
its number besides `fn`, the flags `b` and the TPU offset. -/
inductive ToDsp
  | tick (id fn : Nat) (b : BitVec 32) (offset : Word)
  | go (fn : Nat)
  | dcch (tn genre ss : BitVec 32)
  deriving Repr, DecidableEq

namespace ToDsp

def irqTrame : BitVec 32 := 0x10000

def deuxPhases : BitVec 32 := 0x20000

/-- Does a TICK with flags `b` ask for two phases (bit 17)? -/
def twoPhase (b : BitVec 32) : Bool := bitSet b 17

end ToDsp

/-- PONT_DONE from the DSP: the flags, and the number of the TICK it answers. -/
structure Done where
  a : BitVec 32
  id : Nat
  deriving Repr, DecidableEq

namespace Done

/-- `PONT_DONE_PHASE_A` (bit 4). -/
def phaseA (m : Done) : Bool := bitSet m.a 4

/-- `PONT_DONE_API_IRQ` (bit 0). -/
def apiIrq (m : Done) : Bool := bitSet m.a 0

end Done

/-! ### State -/

inductive TickPhase
  /-- 0: the next tick starts a frame. -/
  | frameStart
  /-- 1: waiting for phase A and for the ARM's `l1_sync`. -/
  | waiting
  deriving Repr, DecidableEq

/-- The TPU registers `pont_echange` reads. -/
structure TpuRegs where
  ctrl : Word
  intCtrl : Word
  offset : Word
  dspPage : BitVec 8
  deriving Repr, DecidableEq

/-- The fields of `CalypsoTRX` the frame loop uses. -/
structure Trx where
  /-- A TICK was sent, its DONE is not collected yet. -/
  pontPending : Bool
  tickPhase : TickPhase
  phaseARecue : Bool
  goInutile : Bool
  /-- `frame_eoi` to reach before GO goes out. -/
  eoiCible : Nat
  eoiAttentes : Nat
  eoiTimeouts : Nat
  fn : Nat
  tdmaRunning : Bool
  tpu : TpuRegs
  /-- `dcch_a_dire` and the channel to announce (timeslot, kind, subchannel). -/
  dcch : Option (BitVec 32 × BitVec 32 × BitVec 32)
  deriving Repr, DecidableEq

/-- The DSP, between two messages. -/
inductive Dsp
  | idle
  /-- Playing the frame ISR of a two-phase TICK. -/
  | isr (id : Nat)
  /-- DONE|PHASE_A sent, waiting for GO. -/
  | waitGo (id : Nat)
  /-- Playing the rest of the frame, up to the final DONE. -/
  | play (id : Nat)
  deriving Repr, DecidableEq

/-- The frame loop: the TRX, the interrupt controller, both directions of the
socket, the DSP; then the history variables. -/
structure Pont where
  trx : Trx
  inth : Inth
  toDsp : List ToDsp
  fromDsp : List Done
  dsp : Dsp
  /-- How many TICKs were sent; the number of the last one. -/
  ticks : Nat
  /-- The TICK whose DONE|PHASE_A was taken last. -/
  gotA : Option Nat
  /-- The ARM read IRQ_NUM and has not written its end of service. -/
  inService : Bool
  /-- That service began after the last frame interrupt was raised. -/
  fresh : Bool
  /-- A frame service begun after the last frame interrupt was raised is over. -/
  served : Bool

structure Go where
  id : Nat
  fn : Nat
  /-- DONE|PHASE_A of this very TICK was taken. -/
  phaseA : Bool
  /-- The frame interrupt is masked. -/
  masked : Bool
  /-- The ARM completed a service begun after this frame's interrupt was raised. -/
  served : Bool
  deriving Repr, DecidableEq

inductive PontObs
  | tickSent (id : Nat) (twoPhase : Bool)
  | goSent (g : Go)
  /-- A DONE taken for phase A of TICK number `current`. -/
  | tookPhaseA (m : Done) (current : Nat)
  /-- A DONE taken for the final one of TICK number `current`. -/
  | tookFinal (m : Done) (current : Nat)
  deriving Repr, DecidableEq

namespace Pont

/-- `PONT_ATTENTES_MAX`, at the default retry quantum. -/
def attentesMax : Nat := 256

def hyperframe : Nat := 2715648

/-- At power-on, before the firmware starts the TDMA. -/
def init : Pont where
  trx := {
    pontPending := false, tickPhase := .frameStart, phaseARecue := false, goInutile := false
    eoiCible := 0, eoiAttentes := 0, eoiTimeouts := 0, fn := 0, tdmaRunning := false
    tpu := ⟨0, 0, 0, 0⟩, dcch := none }
  inth := .reset
  toDsp := []
  fromDsp := []
  dsp := .idle
  ticks := 0
  gotA := none
  inService := false
  fresh := false
  served := false

/-! ### Receiving -/

/-- Raise IRQ 15 if the DONE asks for it. -/
def raiseApi (s : Pont) (m : Done) : Pont :=
  if m.apiIrq then { s with inth := s.inth.setIrq Inth.apiIrq true } else s

/-- A DONE taken for the final one: the TICK is no longer pending. -/
def takeFinal (s : Pont) (m : Done) : Pont :=
  { s with trx := { s.trx with pontPending := false } }.raiseApi m

/-- Raise the TPU frame interrupt: from here on, only a service begun later is one of
this frame. -/
def raiseFrame (s : Pont) : Pont :=
  { s with inth := s.inth.setIrq Inth.tpuFrame true, fresh := false, served := false }

/-! ### Sending -/

/-- `pont_tick_b`: the page, and the one-shot DSP frame interrupt (TPU_CTRL_DSP_EN,
bit 4, gated by ICTRL_DSP_FRAME, bit 2), consumed here. -/
def tickB (t : TpuRegs) : TpuRegs × BitVec 32 :=
  let b := t.dspPage.setWidth 32
  if bitSet t.ctrl 4 && !bitSet t.intCtrl 2 then
    ({ t with ctrl := t.ctrl &&& ~~~0x0010#16 }, b ||| ToDsp.irqTrame)
  else (t, b)

def announce (s : Pont) : List ToDsp :=
  match s.trx.dcch with
  | some (tn, genre, ss) => [.dcch tn genre ss]
  | none => []

/-- The sending half of `pont_echange`: the dedicated channel to announce, then the
TICK of the current frame. -/
def sendTick (s : Pont) (deux : Bool) : Pont × List PontObs :=
  let r := tickB s.trx.tpu
  let b := if deux then r.2 ||| ToDsp.deuxPhases else r.2
  ({ s with
      trx := { s.trx with tpu := r.1, dcch := none, pontPending := true }
      toDsp := s.toDsp ++ s.announce ++ [.tick (s.ticks + 1) s.trx.fn b r.1.offset]
      ticks := s.ticks + 1 },
    [.tickSent (s.ticks + 1) (ToDsp.twoPhase b)])

/-- `pont_echange`: collect the previous DONE without blocking, then send a TICK if the
DSP is free. -/
def echange (s : Pont) (deux : Bool) : Pont × List PontObs :=
  if s.trx.pontPending then
    match s.fromDsp with
    | m :: rest =>
      let r := ({ s with fromDsp := rest }.takeFinal m).sendTick deux
      (r.1, .tookFinal m s.ticks :: r.2)
    | [] => (s, [])
  else s.sendTick deux

/-! ### `tdma_tick` -/

/-- Phase 1, the answer of the DSP: DONE|PHASE_A, or the final DONE of a DSP that
plays single-phase. -/
def collectPhaseA (s : Pont) : Pont × List PontObs :=
  match s.fromDsp with
  | [] => (s, [])
  | m :: rest =>
    let s := { s with fromDsp := rest }
    if m.phaseA then
      ({ s with trx := { s.trx with phaseARecue := true }, gotA := some m.id },
        [.tookPhaseA m s.ticks])
    else
      let s := s.takeFinal m
      ({ s with trx := { s.trx with phaseARecue := true, goInutile := true } },
        [.tookFinal m s.ticks])

/-- Phase 1, once phase A is there: one more end of service to wait for, and the frame
interrupt to the ARM. -/
def startArm (s : Pont) : Pont :=
  let base := if s.trx.eoiCible < s.inth.frameEoi then s.inth.frameEoi else s.trx.eoiCible
  { s with trx := { s.trx with eoiCible := base + 1 } }.raiseFrame

/-- Phase 1, first half: collect phase A if it is still missing. -/
def awaitPhaseA (s : Pont) : Pont × List PontObs :=
  if s.trx.phaseARecue then (s, [])
  else
    let r := s.collectPhaseA
    if r.1.trx.phaseARecue then (r.1.startArm, r.2) else r

/-- `fini`: phase A is there and the ARM served the frame interrupt, or masks it. -/
def fini (s : Pont) : Bool :=
  s.trx.phaseARecue &&
    (decide (s.trx.eoiCible ≤ s.inth.frameEoi) || s.inth.irqMasked Inth.tpuFrame)

/-- Does the loop wait for another tick? The first budget covers both answers, the
second (32 times longer) only the ARM's. -/
def patient (s : Pont) : Bool :=
  let n := s.trx.eoiAttentes + 1
  !s.fini && ((decide (attentesMax ≤ n) && decide (n < attentesMax * 32) && s.trx.phaseARecue)
    || decide (n < attentesMax))

/-- A wait ran out: the ARM gets its frame anyway, the target is resynchronised. -/
def timeout (s : Pont) : Pont :=
  let s := if s.trx.phaseARecue then s else s.raiseFrame
  { s with trx := { s.trx with
      eoiCible := s.inth.frameEoi, eoiTimeouts := s.trx.eoiTimeouts + 1
      eoiAttentes := s.trx.eoiAttentes + 1 } }

def goOf (s : Pont) : Go where
  id := s.ticks
  fn := s.trx.fn
  phaseA := s.gotA == some s.ticks
  masked := s.inth.irqMasked Inth.tpuFrame
  served := s.served

/-- The end of phase 1: GO, unless a single-phase DSP already finished. -/
def sendGo (s : Pont) : Pont × List PontObs :=
  let s' := { s with trx := { s.trx with tickPhase := .frameStart } }
  if s.trx.goInutile then (s', [])
  else ({ s' with toDsp := s.toDsp ++ [.go s.trx.fn] }, [.goSent s.goOf])

/-- `tdma_tick` with `tick_phase == 1`. -/
def tickWaiting (s : Pont) : Pont × List PontObs :=
  let r := s.awaitPhaseA
  if r.1.patient then
    ({ r.1 with trx := { r.1.trx with eoiAttentes := r.1.trx.eoiAttentes + 1 } }, r.2)
  else
    let g := (if r.1.fini then r.1 else r.1.timeout).sendGo
    (g.1, r.2 ++ g.2)

/-- `fn` advances at the DSP's pace. -/
def advanceFn (s : Pont) : Pont :=
  { s with trx := { s.trx with fn := (s.trx.fn + 1) % hyperframe } }

/-- Enter phase 1. -/
def startWait (s : Pont) : Pont :=
  { s with trx := { s.trx with
      eoiAttentes := 0, phaseARecue := false, goInutile := false, tickPhase := .waiting } }

/-- The frame proper: advance `fn`, send the two-phase TICK, start to wait. -/
def nextFrame (s : Pont) : Pont × List PontObs :=
  let r := s.advanceFn.echange true
  (r.1.startWait, r.2)

/-- `tdma_tick` with `tick_phase == 0`: lock-step, the frame starts only once the DONE
of the previous one is collected. Any DONE is taken for it. -/
def tickFrameStart (s : Pont) : Pont × List PontObs :=
  if s.trx.pontPending then
    match s.fromDsp with
    | m :: rest =>
      let r := ({ s with fromDsp := rest }.takeFinal m).nextFrame
      (r.1, .tookFinal m s.ticks :: r.2)
    | [] => (s, [])
  else s.nextFrame

def tdmaTick (s : Pont) : Pont × List PontObs :=
  match s.trx.tickPhase with
  | .waiting => s.tickWaiting
  | .frameStart => s.tickFrameStart

/-! ### The DSP and the ARM -/

/-- One move of the DSP; `flags` are its own to choose, the PHASE_A bit apart. -/
def dspStep (s : Pont) (flags : BitVec 32) : Pont :=
  match s.dsp with
  | .idle =>
    match s.toDsp with
    | .tick id _ b _ :: rest =>
      { s with toDsp := rest, dsp := if ToDsp.twoPhase b then .isr id else .play id }
    | _ :: rest => { s with toDsp := rest }
    | [] => s
  | .isr id => { s with dsp := .waitGo id, fromDsp := s.fromDsp ++ [⟨flags ||| 0x10, id⟩] }
  | .waitGo id =>
    match s.toDsp with
    | .go _ :: rest => { s with toDsp := rest, dsp := .play id }
    | _ => s
  | .play id => { s with dsp := .idle, fromDsp := s.fromDsp ++ [⟨flags &&& ~~~0x10, id⟩] }

/-- The ARM reads a register of the interrupt controller; IRQ_NUM begins a service. -/
def armRead (s : Pont) (offset : Nat) : Pont :=
  let s' := { s with inth := (s.inth.read offset).1 }
  if Inth.isIrqNum offset then { s' with inService := true, fresh := true } else s'

/-- The ARM writes a register of the interrupt controller; IRQ_CTRL ends the service. -/
def armWrite (s : Pont) (offset : Nat) (value : Word) : Pont :=
  let s' := { s with inth := s.inth.write offset value }
  if Inth.isEoi offset value then
    { s' with
      inService := false
      served := s.served || (s.inService && s.fresh && s.inth.lastNum == Inth.tpuFrame) }
  else s'

/-! ### The whole as a machine -/

inductive Event
  /-- The TDMA timer fires. -/
  | tick
  /-- The boot timer fires, before the firmware starts the TDMA. -/
  | bootTick
  /-- `pont_boot_pas` gets the DONE it waits for. -/
  | bootCollect
  /-- The firmware starts the TDMA. -/
  | tdmaStart
  /-- The DSP makes a move. -/
  | dsp (flags : BitVec 32)
  /-- The frame interrupt's pulse ends. -/
  | frameIrqLower
  /-- Another line of the interrupt controller changes. -/
  | line (irq : Irq) (level : Bool)
  | armRead (offset : Nat)
  | armWrite (offset : Nat) (value : Word)
  /-- The firmware programs the TPU. -/
  | tpu (regs : TpuRegs)
  /-- A dedicated channel is to be announced. -/
  | dcch (tn genre ss : BitVec 32)
  deriving Repr, DecidableEq

/-- `pont_boot_pas` after its exchange: the DONE of the boot TICK, if it came in time. -/
def bootCollect (s : Pont) : Pont × List PontObs :=
  if s.trx.pontPending then
    match s.fromDsp with
    | m :: rest => ({ s with fromDsp := rest }.takeFinal m, [.tookFinal m s.ticks])
    | [] => (s, [])
  else (s, [])

/-- One step of the frame loop. The TDMA timer runs once the firmware started it, the
boot exchanges only before. -/
def step (s : Pont) : Event → Pont × List PontObs
  | .tick => if s.trx.tdmaRunning then s.tdmaTick else (s, [])
  | .bootTick => if s.trx.tdmaRunning then (s, []) else s.echange false
  | .bootCollect => if s.trx.tdmaRunning then (s, []) else s.bootCollect
  | .tdmaStart =>
    (if s.trx.tdmaRunning then s
     else { s with trx := { s.trx with tdmaRunning := true, fn := 0 } }, [])
  | .dsp flags => (s.dspStep flags, [])
  | .frameIrqLower => ({ s with inth := s.inth.setIrq Inth.tpuFrame false }, [])
  | .line irq level =>
    (if irq = Inth.tpuFrame then s else { s with inth := s.inth.setIrq irq level }, [])
  | .armRead offset => (s.armRead offset, [])
  | .armWrite offset value => (s.armWrite offset value, [])
  | .tpu regs => ({ s with trx := { s.trx with tpu := regs } }, [])
  | .dcch tn genre ss => ({ s with trx := { s.trx with dcch := some (tn, genre, ss) } }, [])

def machine : Machine Pont Event PontObs := ⟨step⟩

end Pont

end Qosmo
