import Qosmo.Basic
import Qosmo.Lib.Queue
import Qosmo.Lib.Ring

/-!
# Qosmo.Uart.Basic

The serial port of the baseband (`hw/char/calypso_uart.c`).

Bytes reach the firmware through a receive FIFO of 8192 cells, kept by hand as a
circular array with a write index, a read index and a count (`RxFifo`). Three producers
fill it: the character backend (`receive`, which the boot-loader stub filters on the
modem port), the in-process injectors (`injectRaw`), and nothing else; the guest empties
it through RBR and may reset it through FCR.

`rx_head`, `rx_tail` and `rx_count` are 16-bit in the source; `Qosmo.Uart.Fifo` shows that
they stay at most 8192, so naturals lose nothing.
-/

namespace Qosmo

/-! ### The receive FIFO -/

/-- The circular array `rx_fifo` with its indices. -/
structure RxFifo where
  cells : Nat → Byte
  head : Nat
  tail : Nat
  count : Nat

namespace RxFifo

def size : Nat := 8192

/-- A FIFO of zeros. -/
def empty : RxFifo := ⟨fun _ => 0, 0, 0, 0⟩

/-- `fifo_reset`: the indices only, the cells keep their bytes. -/
def reset (f : RxFifo) : RxFifo := { f with head := 0, tail := 0, count := 0 }

/-- The FIFO part of `fifo_push`, when there is room. -/
def push (f : RxFifo) (data : Byte) : RxFifo :=
  { f with
    cells := Function.update f.cells f.head data
    head := (f.head + 1) % size
    count := f.count + 1 }

/-- `fifo_pop`: zero when there is nothing. -/
def pop (f : RxFifo) : RxFifo × Byte :=
  if f.count = 0 then (f, 0)
  else ({ f with tail := (f.tail + 1) % size, count := f.count - 1 }, f.cells f.tail)

/-- The bytes waiting, next one out first. -/
def contents (f : RxFifo) : List Byte := Ring.window f.cells size f.tail f.count

end RxFifo

/-! ### The boot-loader stub -/

inductive RomloadState
  | idle
  | after3c
  | blockData
  | chkData
  | brData
  | passthrough
  deriving Repr, DecidableEq

/-- `static struct { … } romload`; `payload_size` never changes. -/
structure Romload where
  state : RomloadState
  needed : Int
  deriving Repr, DecidableEq

namespace Romload

def payloadSize : Nat := 1024

def init : Romload := ⟨.idle, 0⟩

/-- A byte of a data phase: once `needed` bytes have come, answer `ack` and move on. -/
def data (r : Romload) (ack : List Byte) (next : RomloadState) : Romload × List Byte :=
  let needed := r.needed - 1
  if needed = 0 then (⟨next, needed⟩, ack) else ({ r with needed := needed }, [])

/-- `romload_stub_eat`: the next state, the answer sent to the backend, and whether the
byte was swallowed. -/
def stubEat (r : Romload) (b : Byte) : Romload × List Byte × Bool :=
  match r.state with
  | .passthrough => (r, [], false)
  | .idle => (if b = 0x3c then { r with state := .after3c } else r, [], true)
  | .after3c =>
    if b = 0x69 then
      ({ r with state := .idle },
        [0x3e, 0x69, 0x3e, 0x70, BitVec.ofNat 8 (payloadSize + 10),
          BitVec.ofNat 8 ((payloadSize + 10) >>> 8)], true)
    else if b = 0x77 then (⟨.blockData, 8 + payloadSize⟩, [], true)
    else if b = 0x63 then (⟨.chkData, 1⟩, [], true)
    else if b = 0x62 then (⟨.brData, 4⟩, [], true)
    else ({ r with state := .idle }, [], true)
  | .blockData => let t := r.data [0x3e, 0x77] .idle; (t.1, t.2, true)
  | .chkData => let t := r.data [0x3e, 0x63, b] .idle; (t.1, t.2, true)
  | .brData => let t := r.data [0x3e, 0x62] .passthrough; (t.1, t.2, true)

/-- The loop of `calypso_uart_receive` on the modem port: the bytes the stub let through
and the answers it sent. -/
def filter (r : Romload) : List Byte → Romload × List Byte × List Byte
  | [] => (r, [], [])
  | b :: bs =>
    let t := r.stubEat b
    let u := filter t.1 bs
    (u.1, if t.2.2 then u.2.1 else b :: u.2.1, t.2.1 ++ u.2.2)

end Romload

/-! ### The port -/

/-- The `label` property, as far as the code tells labels apart. -/
inductive Label
  | modem
  | irda
  | other
  deriving Repr, DecidableEq

/-- `CalypsoUARTState`; `irq` is the level of the interrupt line. The modem port carries
the state of the boot-loader stub, which only it reads. -/
structure Uart where
  label : Label
  ier : Byte
  iir : Byte
  fcr : Byte
  lcr : Byte
  mcr : Byte
  lsr : Byte
  spr : Byte
  dll : Byte
  dlh : Byte
  mdr1 : Byte
  efr : Byte
  xon1 : Byte
  xon2 : Byte
  xoff1 : Byte
  xoff2 : Byte
  scr : Byte
  ssr : Byte
  wakeupPending : Bool
  rx : RxFifo
  thrEmptyPending : Bool
  txEmptyReads : Nat
  romload : Romload
  irq : Bool

namespace Uart

/-! Bits of IER, LSR, FCR and LCR. -/

def ierRxData : Nat := 0
def ierTxEmpty : Nat := 1
def ierRxLine : Nat := 2
def lsrDr : Nat := 0
def lsrOe : Nat := 1
def lsrThre : Nat := 5
def fcrRxReset : Nat := 1
def fcrTxReset : Nat := 2
def lcrDlab : Nat := 7
/-- `LSR_THRE | LSR_TEMT`. -/
def lsrTxIdle : Byte := 0x60
def lcrConfBf : Byte := 0xBF
/-- `SCR` bit 4: the RX wake-up interrupt is armed. -/
def scrWakeup : Nat := 4

/-- `calypso_uart_reset_state` on the zeroed device. -/
def reset (label : Label) : Uart where
  label := label
  ier := 0
  iir := 0x01
  fcr := 0
  lcr := 0
  mcr := 0
  lsr := lsrTxIdle
  spr := 0
  dll := 0
  dlh := 0
  mdr1 := 0
  efr := 0
  xon1 := 0
  xon2 := 0
  xoff1 := 0
  xoff2 := 0
  scr := 0
  ssr := 0
  wakeupPending := false
  rx := .empty
  thrEmptyPending := false
  txEmptyReads := 0
  romload := .init
  irq := false

inductive Obs
  /-- Bytes entered, left or were dropped from the receive FIFO. -/
  | queue (op : QueueOp Byte)
  /-- A byte found the FIFO full. -/
  | overflow (b : Byte)
  /-- Bytes sent to the backend. -/
  | sent (bs : List Byte)
  /-- A register was read. -/
  | register (offset : Nat) (v : Byte)
  deriving Repr, DecidableEq

def updateIrq (s : Uart) : Uart :=
  let rxLine := bitSet s.ier ierRxLine && bitSet s.lsr lsrOe
  let rxData := bitSet s.ier ierRxData && bitSet s.lsr lsrDr
  let txEmpty := bitSet s.ier ierTxEmpty && s.thrEmptyPending
  { s with
    iir := if rxLine then 0x06 else if rxData then 0x04 else if txEmpty then 0x02 else 0x01
    irq := rxLine || rxData || txEmpty || (s.wakeupPending && bitSet s.scr scrWakeup) }

/-- LSR with DR set, or cleared. -/
def setDr (s : Uart) : Uart := { s with lsr := s.lsr ||| 0x01 }
def clearDr (s : Uart) : Uart := { s with lsr := s.lsr &&& ~~~0x01 }

/-- `fifo_push`: a full FIFO drops the byte and sets OE. -/
def fifoPush (s : Uart) (data : Byte) : Uart × Obs :=
  if RxFifo.size ≤ s.rx.count then ({ s with lsr := s.lsr ||| 0x02 }, .overflow data)
  else ({ s with rx := s.rx.push data }, .queue (.accept [data]))

/-- `fifo_push` of each byte in turn. -/
def pushAll (s : Uart) : List Byte → Uart × List Obs
  | [] => (s, [])
  | b :: bs => ((pushAll (s.fifoPush b).1 bs).1, (s.fifoPush b).2 :: (pushAll (s.fifoPush b).1 bs).2)

def injectRaw (s : Uart) (buf : List Byte) : Uart × List Obs :=
  let r := s.pushAll buf
  (if 0 < r.1.rx.count then
      { r.1.setDr with wakeupPending := r.1.wakeupPending || bitSet r.1.scr scrWakeup }.updateIrq
    else r.1,
    r.2)

def canReceive (s : Uart) : Int := RxFifo.size - s.rx.count

/-- `if (s->rx_count > 0) s->lsr |= LSR_DR;` -/
def flagData (s : Uart) : Uart := if 0 < s.rx.count then s.setDr else s

/-- The port with another state of the boot-loader stub. -/
def loaded (s : Uart) (r : Romload) : Uart := { s with romload := r }

/-- `calypso_uart_receive`: the backend delivers bytes. On the modem port the
boot-loader stub takes what belongs to it. -/
def receive (s : Uart) (buf : List Byte) : Uart × List Obs :=
  match s.label with
  | .irda => ((s.pushAll buf).1.flagData.updateIrq, (s.pushAll buf).2)
  | .modem =>
    let t := s.romload.filter buf
    if t.2.1 = [] then (s.loaded t.1, [.sent t.2.2])
    else (((s.loaded t.1).injectRaw t.2.1).1, .sent t.2.2 :: ((s.loaded t.1).injectRaw t.2.1).2)
  | .other => ((s.injectRaw buf).1.flagData.updateIrq, (s.injectRaw buf).2)

/-! ### Registers -/

inductive Reg
  | rbrThr
  | ier
  | iirFcr
  | lcr
  | mcr
  | lsr
  | msr
  | spr
  | mdr1
  | scr
  | ssr
  deriving Repr, DecidableEq

/-- The register at an offset of the port, if any. -/
def Reg.ofOffset : Nat → Option Reg
  | 0x00 => some .rbrThr
  | 0x01 => some .ier
  | 0x02 => some .iirFcr
  | 0x03 => some .lcr
  | 0x04 => some .mcr
  | 0x05 => some .lsr
  | 0x06 => some .msr
  | 0x07 => some .spr
  | 0x08 => some .mdr1
  | 0x10 => some .scr
  | 0x11 => some .ssr
  | _ => none

/-- DLAB: the divisor latches take the place of the data and IER registers. -/
def dlab (s : Uart) : Bool := bitSet s.lcr lcrDlab

/-- LCR = 0xBF: the enhanced registers take the place of five others. -/
def confBf (s : Uart) : Bool := s.lcr == lcrConfBf

/-- A read of RBR: the next byte, and DR follows the count. -/
def readRbr (s : Uart) : Uart × Byte :=
  let s' := { s with rx := s.rx.pop.1 }
  ((if 0 < s'.rx.count then s'.setDr else s'.clearDr).updateIrq, s.rx.pop.2)

/-- A read of IIR: the second read of "TX empty" ends it. -/
def readIir (s : Uart) : Uart :=
  if s.iir &&& 0x0F = 0x02 then
    if 2 ≤ s.txEmptyReads + 1 then
      { s with thrEmptyPending := false, txEmptyReads := 0 }.updateIrq
    else { s with txEmptyReads := s.txEmptyReads + 1 }
  else s

/-- `calypso_uart_read`, by register. -/
def readReg (s : Uart) : Reg → Uart × Byte
  | .rbrThr => if s.dlab then (s, s.dll) else s.readRbr
  | .ier => (s, if s.dlab then s.dlh else s.ier)
  | .iirFcr => if s.confBf then (s, s.efr) else (s.readIir, s.iir)
  | .lcr => (s, s.lcr)
  | .mcr => (s, if s.confBf then s.xon1 else s.mcr)
  | .lsr => if s.confBf then (s, s.xon2) else ({ s with lsr := s.lsr &&& ~~~0x02 }, s.lsr)
  | .msr => (s, if s.confBf then s.xoff1 else 0xB0)
  | .spr => (s, if s.confBf then s.xoff2 else s.spr)
  | .mdr1 => (s, s.mdr1)
  | .scr => (s, s.scr)
  | .ssr =>
    (s, (s.ssr &&& ~~~0x01)
      ||| (if s.wakeupPending && bitSet s.scr scrWakeup then 0x02 else 0))

def read (s : Uart) (offset : Nat) : Uart × Byte :=
  match Reg.ofOffset offset with
  | some r => s.readReg r
  | none => (s, 0)

/-- A write to THR: the byte goes out at once. -/
def writeThr (s : Uart) : Uart :=
  { s with lsr := s.lsr ||| lsrTxIdle, thrEmptyPending := true, txEmptyReads := 0 }.updateIrq

/-- A write to IER: enabling "TX empty" while the transmitter is idle raises it. -/
def writeIer (s : Uart) (value : Byte) : Uart :=
  let ier := value &&& 0x0F
  { s with
    ier := ier
    thrEmptyPending := s.thrEmptyPending ||
      (!bitSet s.ier ierTxEmpty && bitSet ier ierTxEmpty && bitSet s.lsr lsrThre) }.updateIrq

/-- What FCR does to each direction: RX reset empties the receive FIFO. -/
def fcrRx (s : Uart) (value : Byte) : Uart :=
  if bitSet value fcrRxReset then { s with rx := s.rx.reset }.clearDr else s
def fcrTx (s : Uart) (value : Byte) : Uart :=
  if bitSet value fcrTxReset then
    { s with thrEmptyPending := false, lsr := s.lsr ||| lsrTxIdle }
  else s

def writeFcr (s : Uart) (value : Byte) : Uart :=
  (({ s with fcr := value }.fcrRx value).fcrTx value).updateIrq

/-- `calypso_uart_write`, by register. -/
def writeReg (s : Uart) (value : Byte) : Reg → Uart
  | .rbrThr => if s.dlab then { s with dll := value } else s.writeThr
  | .ier => if s.dlab then { s with dlh := value } else s.writeIer value
  | .iirFcr => if s.confBf then { s with efr := value } else s.writeFcr value
  | .lcr => { s with lcr := value }
  | .mcr => if s.confBf then { s with xon1 := value } else { s with mcr := value }
  | .lsr => if s.confBf then { s with xon2 := value } else s
  | .msr => if s.confBf then { s with xoff1 := value } else s
  | .spr => if s.confBf then { s with xoff2 := value } else { s with spr := value }
  | .mdr1 => { s with mdr1 := value }
  | .scr =>
    { s with
      scr := value
      wakeupPending := s.wakeupPending && bitSet value scrWakeup }.updateIrq
  | .ssr => { s with ssr := value }

def write (s : Uart) (offset : Nat) (value : Byte) : Uart :=
  match Reg.ofOffset offset with
  | some r => s.writeReg value r
  | none => s

def kickRx (s : Uart) : Uart := if 0 < s.rx.count ∧ bitSet s.lsr lsrDr then s.updateIrq else s

def forceInit (s : Uart) : Uart :=
  let s := if s.mdr1 ≠ 0 then { s with mdr1 := 0x00, scr := 0x01 } else s
  { s with ier := 0x03 }.updateIrq

def romloadPassthrough (s : Uart) : Uart :=
  s.loaded { s.romload with state := .passthrough }

/-! ### The port as a machine -/

/-- Calls into the port: `kickTx` is `calypso_uart_kick_tx`. -/
inductive Event
  | receive (buf : List Byte)
  | inject (buf : List Byte)
  | read (offset : Nat)
  | write (offset : Nat) (value : Byte)
  | kickRx
  | kickTx
  | forceInit
  | romloadPassthrough
  deriving Repr, DecidableEq

/-- Does a read at this offset take a byte from the receive FIFO? -/
def takes (s : Uart) (offset : Nat) : Bool :=
  Reg.ofOffset offset == some .rbrThr && !s.dlab && 0 < s.rx.count

/-- Does this write reset the receive FIFO? -/
def flushes (s : Uart) (offset : Nat) (value : Byte) : Bool :=
  Reg.ofOffset offset == some .iirFcr && !s.confBf && bitSet value fcrRxReset

/-- Does this write send a byte? -/
def sends (s : Uart) (offset : Nat) : Bool := Reg.ofOffset offset == some .rbrThr && !s.dlab

def step (s : Uart) : Event → Uart × List Obs
  | .receive buf => s.receive buf
  | .inject buf => s.injectRaw buf
  | .read offset =>
    ((s.read offset).1,
      if s.takes offset then [.queue (.deliver [(s.read offset).2])]
      else [.register offset (s.read offset).2])
  | .write offset value =>
    (s.write offset value,
      (if s.flushes offset value then [.queue (.lose s.rx.contents)] else [])
        ++ if s.sends offset then [.sent [value]] else [])
  | .kickRx => (s.kickRx, [])
  | .kickTx => (s.updateIrq, [])
  | .forceInit => (s.forceInit, [])
  | .romloadPassthrough => (s.romloadPassthrough, [])

def machine : Machine Uart Event Obs := ⟨step⟩

/-- The queue operation an observation stands for, if any. -/
def Obs.ops : Obs → List (QueueOp Byte)
  | .queue op => [op]
  | _ => []

/-- The queue operations of a history. -/
def queueOps (os : List Obs) : List (QueueOp Byte) := os.flatMap Obs.ops

end Uart

end Qosmo
