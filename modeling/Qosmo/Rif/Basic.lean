import Qosmo.Basic
import Qosmo.Lib.Queue

/-!
# Qosmo.Rif.Basic

The DSP side of the radio interface (`l1-dsp/calypso_rif.c`), with its default
gates: `CALYPSO_RIF_XIO` on, `CALYPSO_RIF_REPLACE` and `CALYPSO_RIF_RRDY_UNUSED`
off.

A burst coming from the radio is *staged*, and the staging area pours into a
four-word receive FIFO. Two consumers empty the FIFO: the DSP, one word per read
of DRR, and the RHEA DMA controller, many words per drain. Both see one queue,
`Rif.contents`; `Qosmo.Rif.Stream` proves it.

The arrays `fifo` and `stage` of the source are lists here, of lengths `fifo_n`
and `stage_n`: what the arrays hold beyond those lengths is never read. The
statistics counters, which no decision reads in the default mode, are left out.
-/

namespace Qosmo

namespace Rif

/-! ### Registers -/

def fifoDepth : Nat := 4

def stageMax : Nat := 8192

/-- XIO addresses of the registers. -/
def xioDxr : Word := 0x0000
def xioDrr : Word := 0x0001
def xioSpcx : Word := 0x0002
def xioSpcr : Word := 0x0003

/-- Fields of SPCR, by bit number. -/
def spcrRrst : Nat := 1
def spcrRintMask : Nat := 11
def spcrRdmaMask : Nat := 13

/-- Status bits of SPCR, recomputed on every read. -/
def spcrRrdy : Word := 0x0004
def spcrRsrfull : Word := 0x0008
def spcrAlmostFull : Word := 0x0010
def spcrFifoEmpty : Word := 0x0020
def spcrFifoFull : Word := 0x0040

/-- `SPCR_RW_MASK`: DLB, RRST, THRESHOLD, the four request masks and CLKLB are
kept verbatim; the rest is hardware state. -/
def spcrRwMask : Word := 0x7F83

def spcrReset : Word := 0x3CA2
def spcxReset : Word := 0x059E

end Rif

/-- The receiver (`static struct { … } rif`). -/
structure Rif where
  /-- R/W fields of SPCR only. -/
  spcr : Word
  spcx : Word
  dxr : Word
  /-- The receive FIFO, oldest word first (`fifo[0 .. fifo_n)`). -/
  fifo : List Word
  /-- The staging area, `stage[0 .. stage_n)`. -/
  stage : List Word
  /-- How much of `stage` already went into the FIFO. -/
  stagePos : Nat
  rsrfull : Bool
  /-- Last word popped from the FIFO by a DRR read. -/
  drr : Word
  drrValid : Bool
  deriving Repr, DecidableEq

namespace Rif

/-- `rif_init` on the zeroed structure. -/
def init : Rif where
  spcr := spcrReset &&& spcrRwMask
  spcx := spcxReset
  dxr := 0
  fifo := []
  stage := []
  stagePos := 0
  rsrfull := false
  drr := 0
  drrValid := false

def staged (s : Rif) : List Word := s.stage.drop s.stagePos

/-- `rif_threshold`: THRESHOLD (bits 9:7), clamped to `1 .. fifoDepth`. -/
def threshold (s : Rif) : Nat :=
  let t := ((s.spcr &&& 0x0380) >>> 7).toNat
  let t := if t < 1 then 1 else t
  if fifoDepth < t then fifoDepth else t

/-- The loop of `rif_refill`. One word enters the FIFO per iteration, so
`fifoDepth` iterations always reach the loop's exit (`refill_done`). -/
def refillLoop : Nat → Rif → Rif
  | 0, s => s
  | k + 1, s =>
    match s.staged with
    | w :: _ =>
      if s.fifo.length < fifoDepth then
        refillLoop k { s with fifo := s.fifo ++ [w], stagePos := s.stagePos + 1 }
      else s
    | [] => s

/-- `rif_refill`: pour the staging area into the FIFO while there is room. -/
def refill (s : Rif) : Rif := refillLoop fifoDepth s

def spcrRead (s : Rif) : Word :=
  (s.spcr &&& spcrRwMask)
    ||| (if s.fifo.length = 0 then spcrFifoEmpty else 0)
    ||| (if s.threshold ≤ s.fifo.length then spcrAlmostFull else 0)
    ||| (if fifoDepth ≤ s.fifo.length then spcrFifoFull else 0)
    ||| (if s.rsrfull then spcrRsrfull else 0)
    ||| (if 0 < s.fifo.length then spcrRrdy else 0)

/-- A read of DRR: the oldest word if there is one, else the last value again. -/
def drrRead (s : Rif) : Rif × Word :=
  let s := s.refill
  match s.fifo with
  | w :: rest => (({ s with drr := w, fifo := rest, drrValid := true }).refill, w)
  | [] => (s, s.drr)

/-- `calypso_rif_portr`: `none` where the port does not belong to the RIF. -/
def portr (s : Rif) (pa : Word) : Rif × Option Word :=
  if pa = xioDrr then
    let (s, w) := s.drrRead
    (s, some w)
  else if pa = xioSpcr then (s, some s.spcrRead)
  else if pa = xioSpcx then (s, some s.spcx)
  else if pa = xioDxr then (s, some s.dxr)
  else (s, none)

/-- Does writing `val` to SPCR put the receiver in reset (RRST falling)? -/
def resets (s : Rif) (val : Word) : Bool := bitSet s.spcr spcrRrst && !bitSet val spcrRrst

def spcrWrite (s : Rif) (val : Word) : Rif :=
  let s' := { s with spcr := val &&& spcrRwMask }
  if s.resets val then
    { s' with rsrfull := false, fifo := [], stagePos := s.stage.length, drrValid := false }
  else s'

/-- `calypso_rif_portw`: the flag says whether the port belongs to the RIF. -/
def portw (s : Rif) (pa val : Word) : Rif × Bool :=
  if pa = xioSpcr then (s.spcrWrite val, true)
  else if pa = xioSpcx then ({ s with spcx := val }, true)
  else if pa = xioDxr then ({ s with dxr := val }, true)
  else if pa = xioDrr then (s, true) -- DRR cannot be written
  else (s, false)

def level (s : Rif) : Nat := s.fifo.length + (s.stage.length - s.stagePos)

/-- The loop of `calypso_rif_drain`: the FIFO is refilled only once it is empty. -/
def drainLoop : Nat → Rif → Rif × List Word
  | 0, s => (s, [])
  | k + 1, s =>
    let s := if s.fifo.length = 0 then s.refill else s
    match s.fifo with
    | [] => (s, [])
    | w :: rest =>
      let r := drainLoop k { s with fifo := rest }
      (r.1, w :: r.2)

/-- `calypso_rif_drain`: at most `max` words, RSRFULL cleared once all are out. -/
def drain (s : Rif) (max : Int) : Rif × List Word :=
  let r := drainLoop max.toNat s
  if r.2 ≠ [] ∧ r.1.fifo.length = 0 ∧ r.1.stage.length ≤ r.1.stagePos then
    ({ r.1 with rsrfull := false }, r.2)
  else r

def flush (s : Rif) : Rif := { s with fifo := [], stage := [], stagePos := 0 }

/-- The part of a burst the receiver takes: `n` clipped to `RIF_STAGE_MAX`. -/
def clip (w : List Word) : List Word := w.take stageMax

/-- How many of the oldest staged words an armed burst pushes out (`perte`). -/
def perte (s : Rif) (w : List Word) : Nat := s.staged.length + (clip w).length - stageMax

/-- The staging half of `calypso_rif_rx_burst`: compact what is left, drop its
oldest words if the burst does not fit behind it (RSRFULL), append the burst. -/
def stageBurst (s : Rif) (w : List Word) : Rif :=
  let reste := s.staged
  let s' := { s with stage := reste, stagePos := 0 }
  let s' :=
    if stageMax < reste.length + (clip w).length then
      { s' with rsrfull := true, stage := reste.drop (s.perte w) }
    else s'
  { s' with stage := s'.stage ++ clip w }

/-- `calypso_rif_rx_burst`, up to the notification. `armed` is the answer of
`calypso_rhea_dma_rx_armed`: with no receive window open the words never exist. -/
def rxBurst (s : Rif) (armed : Bool) (w : List Word) : Rif :=
  if w = [] then s
  else if !armed then s
  else (s.stageBurst w).refill

/-- Whom a burst notifies (SPCR bits 11 and 13): the DSP, the DMA controller. -/
def notifies (s : Rif) : Bool × Bool :=
  (!bitSet s.spcr spcrRintMask, !bitSet s.spcr spcrRdmaMask)

/-! ### The receiver as a machine

The events are the entry points of the module, in any order. A burst's own
notification may make the DMA controller drain or flush the receiver at once:
that is a `drain` or `flush` event right after the `rxBurst`. -/

/-- Calls into the receiver. -/
inductive Event
  | rxBurst (armed : Bool) (w : List Word)
  | portr (pa : Word)
  | portw (pa val : Word)
  | drain (max : Int)
  | flush
  deriving Repr, DecidableEq

inductive Obs
  /-- Words entered, left or were dropped from the receiver. -/
  | queue (op : QueueOp Word)
  /-- DRR was read with nothing to receive: its last value came out again. -/
  | stale (w : Word)
  /-- Another register was read. -/
  | register (pa w : Word)
  /-- A burst arrived; the DSP and the DMA controller were told, or not. -/
  | notified (rint rdma : Bool)
  deriving Repr, DecidableEq

/-- The words of the receiver, next one out first. -/
def contents (s : Rif) : List Word := s.fifo ++ s.staged

/-- The observation of a read of DRR: the value returned, which is a word of the
receiver unless the FIFO is empty even after the refill. -/
def drrObs (s : Rif) : List Obs :=
  if s.refill.fifo = [] then [.stale s.drrRead.2] else [.queue (.deliver [s.drrRead.2])]

/-- The observations of an armed burst: the oldest staged words it pushes out, the
words it brings, its notification. -/
def burstObs (s : Rif) (w : List Word) : List Obs :=
  [.queue (.lose (s.staged.take (s.perte w))), .queue (.accept (clip w)),
    .notified s.notifies.1 s.notifies.2]

def step (s : Rif) : Event → Rif × List Obs
  | .rxBurst armed w =>
    (s.rxBurst armed w, if w ≠ [] ∧ armed then s.burstObs w else [])
  | .portr pa =>
    ((s.portr pa).1,
      if pa = xioDrr then s.drrObs
      else match (s.portr pa).2 with
        | some v => [.register pa v]
        | none => [])
  | .portw pa val =>
    ((s.portw pa val).1,
      if pa = xioSpcr ∧ s.resets val then [.queue (.lose s.contents)] else [])
  | .drain max => ((s.drain max).1, [.queue (.deliver (s.drain max).2)])
  | .flush => (s.flush, [.queue (.lose s.contents)])

def machine : Machine Rif Event Obs := ⟨step⟩

/-- The queue operation an observation stands for, if any. -/
def Obs.ops : Obs → List (QueueOp Word)
  | .queue op => [op]
  | _ => []

/-- Every word a consumer got from an observation, repeated DRR values included. -/
def Obs.handed : Obs → List Word
  | .queue op => op.deliveredWords
  | .stale w => [w]
  | _ => []

/-- The queue operations of a history. -/
def queueOps (os : List Obs) : List (QueueOp Word) := os.flatMap Obs.ops

/-- The words handed out over a history, repeated DRR values included. -/
def handedOut (os : List Obs) : List Word := os.flatMap Obs.handed

end Rif

end Qosmo
