import Qosmo.Rif.Basic

/-!
# Qosmo.RheaDma.Basic

The RHEA DMA controller (`l1-dsp/calypso_rhea_dma.c`) and the transfer it runs between the
radio receiver and the API memory shared with the ARM, with the default gates:
`CALYPSO_RHEA_DMA` on, `CALYPSO_RHEA_DMA_ARM_SKIP` and `CALYPSO_RHEA_DMA_CONTIGU` unset.

The controller itself is a bank of registers, `RheaDma`. Channel 2 (`ch[1]` of the source)
serves the receiver: on a request it empties the receiver page by page into the API memory,
at AAD or at AAD + ALGTH according to CURRENT_PAGE. `Reception` is the receiver, the
controller and the API memory together; its events are the entry points of the two modules,
called in any order.

The bank is initialised before its first use, so `init` is its initial state. The counters
that only feed the log are left out.
-/

namespace Qosmo

namespace RheaDma

/-! ### Registers -/

/-- Fields of DMAn_CTRL. -/
def ctrlEnable : Word := 0x0001
def ctrlIdle : Word := 0x0002
def ctrlCurrentPage : Word := 0x0010
def ctrlDmaStart : Word := 0x0040
def ctrlIrqState : Word := 0x0100
def ctrlRheaError : Word := 0x0200

/-- `CTRL_RO_MASK`: the bits software never overwrites. -/
def ctrlRoMask : Word := ctrlIdle ||| ctrlIrqState ||| ctrlRheaError

def ctrlReset : Word := 0x04A2
def ctrlCfgReset : Word := 0x0024
def allocReset : Word := 0x000F

/-- `C54X_API_SIZE`, in words. -/
def apiSize : Nat := 0x2000

/-- The bits of DMAn_CTRL the code tests. -/
structure Flags where
  enable : Bool
  idle : Bool
  oneShot : Bool
  currentPage : Bool
  irqMode : Bool
  irqState : Bool
  direction : Bool
  deriving Repr, DecidableEq

def Flags.ofCtrl (ctrl : Word) : Flags where
  enable := bitSet ctrl 0
  idle := bitSet ctrl 1
  oneShot := bitSet ctrl 2
  currentPage := bitSet ctrl 4
  irqMode := bitSet ctrl 7
  irqState := bitSet ctrl 8
  direction := bitSet ctrl 10

inductive Reg
  | rad | rdpth | aad | algth | ctrl | curOff
  deriving Repr, DecidableEq

def Reg.ofOffset (off : Nat) : Option Reg :=
  if off = 0x0 then some .rad
  else if off = 0x2 then some .rdpth
  else if off = 0x4 then some .aad
  else if off = 0x6 then some .algth
  else if off = 0x8 then some .ctrl
  else if off = 0xA then some .curOff
  else none

def chBase (n : Nat) : Nat := 0x10 + 0x10 * n

def channelAt (off : Nat) : Option Nat :=
  (List.range 4).find? fun n => decide (chBase n ≤ off) && decide (off ≤ chBase n + 0xA)

def decode (off : Nat) : Option (Nat × Reg) :=
  (channelAt off).bind fun n => (Reg.ofOffset (off - chBase n)).map fun r => (n, r)

/-- One channel (`rd.ch[n]`). -/
structure Channel where
  rad : Word
  rdpth : Word
  aad : Word
  algth : Word
  ctrl : Word
  curOff : Word
  deriving Repr, DecidableEq

namespace Channel

def flags (c : Channel) : Flags := .ofCtrl c.ctrl

/-- Page length in words: ALGTH is in bytes. -/
def pageWords (c : Channel) : Nat := c.algth.toNat / 2

/-- `dst_idx`: AAD is a byte offset from the API base. -/
def dstIdx (c : Channel) : Nat := (c.aad &&& 0x0FFF).toNat / 2

/-- The value of a register. DMA_START always reads 0. -/
def get (c : Channel) : Reg → Word
  | .rad => c.rad
  | .rdpth => c.rdpth
  | .aad => c.aad
  | .algth => c.algth
  | .ctrl => c.ctrl &&& ~~~ctrlDmaStart
  | .curOff => c.curOff

/-- Reading CTRL clears IRQ_STATE and RHEA_ERROR. -/
def ack (c : Channel) : Reg → Channel
  | .ctrl => { c with ctrl := c.ctrl &&& ~~~(ctrlIrqState ||| ctrlRheaError) }
  | _ => c

/-- The write to a register. CUR_OFFSET is read-only. -/
def put (c : Channel) (v : Word) : Reg → Channel
  | .rad => { c with rad := v }
  | .rdpth => { c with rdpth := v &&& 0x07FF }
  | .aad => { c with aad := v &&& 0x0FFF }
  | .algth => { c with algth := v &&& 0x0FFF }
  | .ctrl => { c with ctrl := (v &&& ~~~ctrlRoMask &&& 0x1FFF) ||| (c.ctrl &&& ctrlRoMask) }
  | .curOff => c

def abort (c : Channel) : Channel := { c with ctrl := c.ctrl ||| ctrlRheaError }

def running (c : Channel) : Channel := { c with ctrl := c.ctrl &&& ~~~ctrlIdle }

/-- No transfer is running. -/
def rest (c : Channel) : Channel := { c with ctrl := c.ctrl ||| ctrlIdle }

/-- A page of `got` words is out: the next one goes to the other place. -/
def turn (c : Channel) (got : Nat) : Channel :=
  { c with curOff := BitVec.ofNat 16 (got * 2), ctrl := c.ctrl ^^^ ctrlCurrentPage }

/-- The transfer is complete. -/
def done (c : Channel) : Channel :=
  { c with ctrl := (c.ctrl ||| ctrlIrqState ||| ctrlIdle) &&& ~~~ctrlDmaStart }

/-- A one-shot window closes. -/
def disarm (c : Channel) : Channel := { c with ctrl := c.ctrl &&& ~~~ctrlEnable }

end Channel

end RheaDma

open RheaDma in
/-- The register bank (`static struct { … } rd`), and the words still to be skipped. -/
structure RheaDma where
  ctrlCfg : Word
  allocCfg : Word
  ch : Nat → Channel
  skipPending : Nat

namespace RheaDma

def init : RheaDma where
  ctrlCfg := ctrlCfgReset
  allocCfg := allocReset
  ch := fun _ => ⟨0, 0, 0, 0, ctrlReset, 0⟩
  skipPending := 0

/-- `arm_skip_words`, with its gate unset. -/
def armSkipWords : Nat := 0

def rx : Nat := 1

def set (d : RheaDma) (n : Nat) (c : Channel) : RheaDma := { d with ch := Function.update d.ch n c }

def read (d : RheaDma) (off : Nat) : RheaDma × Word :=
  if off = 0x00 then (d, d.ctrlCfg)
  else if off = 0x02 then (d, d.allocCfg)
  else match decode off with
    | some (n, r) => (d.set n ((d.ch n).ack r), (d.ch n).get r)
    | none => (d, 0)

def arms (d : RheaDma) (n : Nat) (r : Reg) (v : Word) : Bool :=
  n == rx && r == .ctrl && (Flags.ofCtrl v).enable && !(d.ch n).flags.enable
    && !(Flags.ofCtrl v).oneShot

def write (d : RheaDma) (off : Nat) (v : Word) : RheaDma :=
  if off = 0x00 then { d with ctrlCfg := v &&& 0x003F }
  else if off = 0x02 then { d with allocCfg := v &&& 0x000F }
  else match decode off with
    | some (n, r) =>
      { d.set n ((d.ch n).put v r) with
        skipPending := if d.arms n r v then armSkipWords else d.skipPending }
    | none => d

def rxArmed (d : RheaDma) : Bool := (d.ch rx).flags.enable && (d.ch rx).flags.direction

end RheaDma

/-! ### The transfer -/

/-- The receiver, the controller, the DSP it last served (`rd_dsp`) and the API memory,
absent when the DSP has none. -/
structure Reception where
  rif : Rif
  dma : RheaDma
  rdDsp : Bool
  api : Option (Nat → Word)

namespace Reception

open RheaDma

inductive Obs
  /-- A burst brought these words into the receiver. -/
  | received (w : List Word)
  /-- Words were taken from the receiver and thrown away. -/
  | skipped (w : List Word)
  /-- A page was written to the API memory at `dst`. -/
  | page (dst : Nat) (w : List Word)
  /-- The page was cut to the end of the API window. -/
  | clipped
  /-- AAD was found outside the API window. -/
  | outside
  /-- `c54x_interrupt_ex`. -/
  | interrupt (vec bit : Nat)
  /-- A register was read. -/
  | value (v : Word)
  deriving Repr, DecidableEq

def chan (r : Reception) : Channel := r.dma.ch rx

def setChan (r : Reception) (c : Channel) : Reception := { r with dma := r.dma.set rx c }

/-- `for (i < got) if (pdst + i < C54X_API_SIZE) api[pdst + i] = buf[i]`. -/
def store : Nat → List Word → (Nat → Word) → Nat → Word
  | _, [], api => api
  | dst, w :: ws, api =>
    store (dst + 1) ws (if dst < apiSize then Function.update api dst w else api)

/-- The loop that throws words away; each turn but the last removes one or more, so
`skipPending` turns reach its exit. -/
def skipLoop : Nat → Reception → Reception × List Obs
  | 0, r => (r, [])
  | k + 1, r =>
    if r.dma.skipPending = 0 then (r, [])
    else
      let m := min r.dma.skipPending 256
      let q := r.rif.drain m
      if q.2 = [] then ({ r with rif := q.1 }, [])
      else
        let r' := { r with
          rif := q.1, dma := { r.dma with skipPending := r.dma.skipPending - q.2.length } }
        ((skipLoop k r').1, .skipped q.2 :: (skipLoop k r').2)

/-- `pdst`: where the next page goes. -/
def pageDst (r : Reception) (dst max : Nat) : Nat :=
  if r.chan.flags.currentPage then dst + max else dst

/-- The page `buf` is out of the receiver, now `rif`. -/
def putPage (r : Reception) (dst max : Nat) (rif : Rif) (buf : List Word) : Reception :=
  { r with rif := rif, api := r.api.map (store (r.pageDst dst max) buf) }.setChan
    (r.chan.turn buf.length)

/-- The loop over the pages. Its first argument counts down from the guard of 64 pages. -/
def pageLoop (oneShot : Bool) (dst max : Nat) : Nat → Reception → Reception × List Obs
  | 0, r => (r, [])
  | k + 1, r =>
    if !oneShot && decide (r.rif.level < max) then (r, []) -- wait for a full page
    else
      let q := r.rif.drain max
      if q.2 = [] then ({ r with rif := q.1 }, [])
      else
        let r' := r.putPage dst max q.1 q.2
        let o := Obs.page (r.pageDst dst max) q.2
        if oneShot || !r'.chan.flags.currentPage || decide (q.2.length < max) then (r', [o])
        else ((pageLoop oneShot dst max k r').1, o :: (pageLoop oneShot dst max k r').2)

/-- The end of a transfer that moved something; a one-shot window closes with it. -/
def complete (r : Reception) : Reception × List Obs :=
  let c := r.chan.done
  let r' :=
    if c.flags.oneShot then { r.setChan c.disarm with rif := r.rif.flush } else r.setChan c
  (r', if c.flags.irqMode then [.interrupt 30 14] else [])

/-- The pages of a request, from an idle channel or one just skipped. -/
def transferPages (r : Reception) (oneShot : Bool) (dst max : Nat) : Reception × List Obs :=
  let q := pageLoop oneShot dst max 64 r
  if q.2 = [] then (q.1.setChan q.1.chan.rest, [])
  else ((complete q.1).1, q.2 ++ (complete q.1).2)

/-- The request once everything is checked. Both pages belong to the DSP while IRQ_STATE
is pending. -/
def transfer (r : Reception) (dst max : Nat) : Reception × List Obs :=
  let f := r.chan.flags
  let r := r.setChan r.chan.running
  if !f.oneShot && f.irqState then (r.setChan r.chan.rest, [])
  else if !f.oneShot && decide (0 < r.dma.skipPending) then
    let q := skipLoop r.dma.skipPending r
    if 0 < q.1.dma.skipPending then (q.1.setChan q.1.chan.rest, q.2)
    else ((q.1.transferPages f.oneShot dst max).1,
      q.2 ++ (q.1.transferPages f.oneShot dst max).2)
  else r.transferPages f.oneShot dst max

/-- `calypso_rhea_dma_rx_request`; `s` says whether a DSP was passed. -/
def rxRequest (r : Reception) (s : Bool) : Reception × List Obs :=
  let c := r.chan
  let r := { r with rdDsp := r.rdDsp || s }
  if !c.flags.enable then (r, [])
  else if !c.flags.direction then (r, [])
  else if c.pageWords = 0 then (r.setChan c.abort, [])
  else if !s || r.api.isNone then (r.setChan c.abort, [])
  else if apiSize < c.dstIdx + c.pageWords then
    if apiSize - c.dstIdx = 0 then (r.setChan c.abort, [.outside])
    else
      let q := r.transfer c.dstIdx (min (apiSize - c.dstIdx) 4096)
      (q.1, .clipped :: q.2)
  else r.transfer c.dstIdx (min c.pageWords 4096)

/-- `calypso_rhea_dma_pump`, without its result. -/
def pump (r : Reception) (s : Bool) : Reception × List Obs :=
  let r := { r with rdDsp := r.rdDsp || s }
  let c := r.chan
  if !c.flags.enable || !c.flags.direction || c.flags.oneShot then (r, [])
  else if c.pageWords = 0 then (r, [])
  else if r.rif.level < (if c.flags.currentPage then c.pageWords else 2 * c.pageWords) then (r, [])
  else r.rxRequest r.rdDsp

def arrive (r : Reception) (w : List Word) : Reception := { r with rif := r.rif.rxBurst true w }

/-- The receive interrupt, where the receiver asks for it. -/
def rint (r : Reception) (s : Bool) : List Obs :=
  if r.rif.notifies.1 && s then [.interrupt 16 0] else []

/-- `calypso_rif_rx_burst`, with its notification. -/
def burst (r : Reception) (s : Bool) (w : List Word) : Reception × List Obs :=
  if w = [] ∨ r.dma.rxArmed = false then (r, [])
  else
    let r' := r.arrive w
    let o := .received (Rif.clip w) :: r'.rint s
    if r'.rif.notifies.2 then ((r'.rxRequest s).1, o ++ (r'.rxRequest s).2) else (r', o)

/-! ### Reception as a machine -/

/-- Calls into the receiver and the controller. The DSP reaches the controller's bank through
`calypso_rhea_dma_xio`, at the same offsets as the ARM. -/
inductive Event
  | burst (s : Bool) (w : List Word)
  | rxRequest (s : Bool)
  | pump (s : Bool)
  | read (off : Nat)
  | write (off : Nat) (v : Word)
  | portr (pa : Word)
  | portw (pa val : Word)
  deriving Repr, DecidableEq

def step (r : Reception) : Event → Reception × List Obs
  | .burst s w => r.burst s w
  | .rxRequest s => r.rxRequest s
  | .pump s => r.pump s
  | .read off => ({ r with dma := (r.dma.read off).1 }, [.value (r.dma.read off).2])
  | .write off v => ({ r with dma := r.dma.write off v }, [])
  | .portr pa => ({ r with rif := (r.rif.portr pa).1 }, (r.rif.portr pa).2.toList.map .value)
  | .portw pa val => ({ r with rif := (r.rif.portw pa val).1 }, [])

def machine : Machine Reception Event Obs := ⟨step⟩

def init (api : Option (Nat → Word)) : Reception := ⟨.init, .init, false, api⟩

end Reception

end Qosmo
