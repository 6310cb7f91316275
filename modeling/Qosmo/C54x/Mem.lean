import Qosmo.C54x.State

/-!
# Qosmo.C54x.Mem

The data and program memories (`c54x_mem.c`) with the default gates.

Below 0x20 a data address names a register (`Mmr`). Three more registers belong
to the timer, the window 0x0800..0x27FF is shared with the ARM, and four groups
of addresses do not store what is written to them:

* the power measurements `a_pm` (0x0834..0x0836, 0x0848..0x084A) receive the level
  of the next radio window, and `D_PM` (0x0831, 0x0845) the level of the air model;
* word 7 of every page of the data ROM 0x9000..0xDFFF drops the write;
* the SP register refuses the API page 0x08xx;
* IMR and SP refuse some writes made by the ROM pages 0xE000.. late in a run.
-/

namespace Qosmo.C54x

/-- What one instruction or one interrupt entry sees of the rest of the baseband:
the radio front end, the I/O ports and the Rhea DMA interrupt line. -/
structure Bus where
  /-- `calypso_bsp_rssi_apm_suivante`: level of the n-th measurement window -/
  apm : Nat → Word
  /-- `calypso_bsp_air_dpm` -/
  airDpm : Word → Word
  /-- the IFR bits a port write raises (the cipher unit's completion) -/
  portw : Word → Word → Word
  /-- the value of a port read, if some peripheral answers there -/
  portr : Word → Option Word
  /-- `calypso_rhea_dma_irq_level` -/
  dmaLine : Bool

/-- What the executing instruction reads but cannot change. -/
structure Ctx where
  bus : Bus
  pc : BitVec 32
  insnCount : BitVec 32
  rptActive : Bool

/-! ### Memory-mapped registers -/

/-- The registers mapped at data addresses 0x00..0x1E. -/
inductive Mmr where
  | imr | ifr | st0 | st1
  | al | ah | ag | bl | bh | bg
  | t | trn
  | ar (n : BitVec 3)
  | sp | bk | brc | rsa | rea | pmst | xpc
  deriving DecidableEq, Repr

/-- The register at a data address below 0x20 (0x02..0x05 and 0x1F are holes). -/
def mmrAt (addr : Word) : Option Mmr :=
  match addr.toNat with
  | 0x00 => some .imr
  | 0x01 => some .ifr
  | 0x06 => some .st0
  | 0x07 => some .st1
  | 0x08 => some .al
  | 0x09 => some .ah
  | 0x0A => some .ag
  | 0x0B => some .bl
  | 0x0C => some .bh
  | 0x0D => some .bg
  | 0x0E => some .t
  | 0x0F => some .trn
  | 0x10 => some (.ar 0)
  | 0x11 => some (.ar 1)
  | 0x12 => some (.ar 2)
  | 0x13 => some (.ar 3)
  | 0x14 => some (.ar 4)
  | 0x15 => some (.ar 5)
  | 0x16 => some (.ar 6)
  | 0x17 => some (.ar 7)
  | 0x18 => some .sp
  | 0x19 => some .bk
  | 0x1A => some .brc
  | 0x1B => some .rsa
  | 0x1C => some .rea
  | 0x1D => some .pmst
  | 0x1E => some .xpc
  | _ => none

/-- The `switch` of `data_read_locked`. -/
def readMmr (s : Cpu) : Mmr → Word
  | .imr => s.imr
  | .ifr => s.ifr
  | .st0 => s.st0
  | .st1 => s.st1
  | .al => s.a.setWidth 16
  | .ah => (s.a >>> 16).setWidth 16
  | .ag => ((s.a >>> 32).setWidth 16) &&& 0xFF
  | .bl => s.b.setWidth 16
  | .bh => (s.b >>> 16).setWidth 16
  | .bg => ((s.b >>> 32).setWidth 16) &&& 0xFF
  | .t => s.t
  | .trn => s.trn
  | .ar n => s.ar n
  | .sp => s.sp
  | .bk => s.bk
  | .brc => s.brc
  | .rsa => s.rsa
  | .rea => s.rea
  | .pmst => s.pmst
  | .xpc => s.xpc

/-- Replace the low, high or guard part of an accumulator. -/
def putLow (acc : Acc) (v : Word) : Acc := (acc &&& ~~~ 0xFFFF#64) ||| v.setWidth 64
def putHigh (acc : Acc) (v : Word) : Acc := (acc &&& ~~~ 0xFFFF0000#64) ||| (v.setWidth 64 <<< 16)
def putGuard (acc : Acc) (v : Word) : Acc :=
  (acc &&& 0xFFFFFFFF#64) ||| ((v &&& 0xFF).setWidth 64 <<< 32)

/-- Stored writes to IMR are refused to the ROM pages 0xE000..0xEFFF once the DSP
has run for a million instructions. -/
def gardeImr (c : Ctx) (s : Cpu) : Bool :=
  s.xpc == 0 && decide (0xE000 ≤ c.pc) && decide (c.pc ≤ 0xEFFF) &&
    decide (1000000#32 < c.insnCount)

/-- SP refuses the API page, and values below 0x60 coming from the high ROM pages
once the DSP has run for a million instructions. -/
def gardeSp (c : Ctx) (s : Cpu) (v : Word) : Bool :=
  (decide (0x0800 ≤ v) && decide (v < 0x0900)) ||
    (decide (v < 0x0060) && s.xpc == 0 && decide (0xE000 ≤ c.pc) &&
      decide (1000000#32 < c.insnCount))

/-- The `switch` of `data_write_locked`. -/
def writeMmr (c : Ctx) (s : Cpu) (v : Word) : Mmr → Cpu
  | .imr => if gardeImr c s then s else { s with imr := v }
  -- writing 1 acknowledges
  | .ifr => { s with ifr := s.ifr &&& ~~~ v }
  | .st0 => { s with st0 := v }
  | .st1 => { s with st1 := v }
  | .al => { s with a := putLow s.a v }
  | .ah => { s with a := putHigh s.a v }
  | .ag => { s with a := putGuard s.a v }
  | .bl => { s with b := putLow s.b v }
  | .bh => { s with b := putHigh s.b v }
  | .bg => { s with b := putGuard s.b v }
  | .t => { s with t := v }
  | .trn => { s with trn := v }
  | .ar n => s.setAr n v
  | .sp => if gardeSp c s v then s else { s with sp := v }
  | .bk => { s with bk := v }
  | .brc => { s with brc := v }
  | .rsa => { s with rsa := v }
  | .rea => { s with rea := v }
  | .pmst => { s with pmst := v }
  | .xpc => { s with xpc := v &&& 3 }

/-! ### Data memory -/

def timAddr : Word := 0x0024
def prdAddr : Word := 0x0025
def tcrAddr : Word := 0x0026

/-- The window shared with the ARM. -/
def inApi (addr : Word) : Bool := decide (0x0800 ≤ addr) && decide (addr < 0x2800)

def apiOff (addr : Word) : BitVec 13 := (addr - 0x0800).setWidth 13

def dataRead (s : Cpu) (addr : Word) : Word :=
  if addr = tcrAddr then
    (s.data tcrAddr &&& ~~~ Tcr.pscMask) ||| ((s.timerPsc &&& 0xF) <<< Tcr.pscShift)
  else if addr < 0x20 then
    match mmrAt addr with
    | some r => readMmr s r
    | none => 0
  else if inApi addr then
    match s.apiRam with
    | some ram => ram (apiOff addr)
    | none => s.data addr
  else s.data addr

def setData (s : Cpu) (addr v : Word) : Cpu := { s with data := Function.update s.data addr v }

/-- Store in the shared window: the ARM's copy, if it is wired, and the DSP's. -/
def setApi (s : Cpu) (addr v : Word) : Cpu :=
  setData { s with apiRam := s.apiRam.map fun ram => Function.update ram (apiOff addr) v } addr v

/-- Writes to these ROM words are dropped. -/
def romDrop (addr : Word) : Bool :=
  decide (0x9000 ≤ addr) && decide (addr ≤ 0xDFFF) && (addr &&& 0x7F) == 0x07

def dataWriteLocked (c : Ctx) (s : Cpu) (addr v : Word) : Cpu :=
  if romDrop addr then s
  else if addr = tcrAddr then
    let s := if bitSet v Tcr.trb then
        { setData s timAddr (s.data prdAddr) with timerPsc := v &&& Tcr.tddrMask }
      else s
    setData s tcrAddr (clearBit v Tcr.trb)
  else if addr < 0x20 then
    match mmrAt addr with
    | some r => writeMmr c s v r
    | none => s
  else if inApi addr then setApi s addr v
  else setData s addr v

/-- The power measurements `a_pm` of the two API pages. -/
def isApm (addr : Word) : Bool :=
  (decide (0x0834 ≤ addr) && decide (addr ≤ 0x0836)) ||
    (decide (0x0848 ≤ addr) && decide (addr ≤ 0x084A))

/-- `D_PM` of the two API pages. -/
def isDpm (addr : Word) : Bool := addr == 0x0831 || addr == 0x0845

def dataWrite (c : Ctx) (s : Cpu) (addr v : Word) : Cpu :=
  if isApm addr then
    dataWriteLocked c { s with apmServed := s.apmServed + 1 } addr (c.bus.apm s.apmServed)
  else if isDpm addr then dataWriteLocked c s addr (c.bus.airDpm v)
  else dataWriteLocked c s addr v

/-! ### Program memory -/

/-- `c54x_xpc_haut_banque`: extended pages 1 and 2 are banked up to 0xFFFF. -/
def xpcHautBanque (xpc : Word) : Bool := (xpc &&& 0x7F) == 1 || (xpc &&& 0x7F) == 2

def progXlate (s : Cpu) (addr : Word) : BitVec 18 :=
  if 0x8000 ≤ addr ∧ (addr < 0xE000 ∨ xpcHautBanque s.xpc) then
    (s.xpc.setWidth 18 <<< 16) ||| addr.setWidth 18
  else addr.setWidth 18

/-- The overlay: with OVLY set, data words 0x60..0x27FF are program words too. -/
def inOverlay (s : Cpu) (addr : Word) : Bool :=
  bitSet s.pmst Pmst.ovly && decide (0x0060 ≤ addr) && decide (addr < 0x2800)

/-- `prog_fetch` and `prog_read`. -/
def progFetch (s : Cpu) (addr : Word) : Word :=
  if inOverlay s addr then s.data addr else s.prog (progXlate s addr)

def progWrite (s : Cpu) (addr v : Word) : Cpu :=
  if 0xE000 ≤ addr then s
  else
    let s := if inOverlay s addr then setData s addr v else s
    let ext : BitVec 18 := (s.xpc.setWidth 18 <<< 16) ||| addr.setWidth 18
    let s := if 0x8000 ≤ addr then { s with prog := Function.update s.prog ext v } else s
    { s with prog := Function.update s.prog (addr.setWidth 18) v }

/-! ### Address arithmetic -/

/-- The number of address bits of a circular buffer: `while ((1u << n) < bk) n++`. -/
def circBits (bk : Word) : Nat := (List.range 17).findIdx fun n => decide (bk.toNat ≤ 2 ^ n)

def circRef (ar : Word) (step : Int) (bk : Word) : Word :=
  if bk = 0 then ar + BitVec.ofInt 16 step
  else
    let masque : Word := BitVec.ofNat 16 (2 ^ circBits bk - 1)
    let base := ar &&& ~~~ masque
    let idx : Int := (ar &&& masque).toNat + step
    let idx := if (bk.toNat : Int) ≤ idx then idx - bk.toNat
      else if idx < 0 then idx + bk.toNat
      else idx
    base + BitVec.ofInt 16 idx

def bitrev16 (v : Word) : Word :=
  let v := ((v &&& 0xAAAA) >>> 1) ||| ((v &&& 0x5555) <<< 1)
  let v := ((v &&& 0xCCCC) >>> 2) ||| ((v &&& 0x3333) <<< 2)
  let v := ((v &&& 0xF0F0) >>> 4) ||| ((v &&& 0x0F0F) <<< 4)
  ((v &&& 0xFF00) >>> 8) ||| ((v &&& 0x00FF) <<< 8)

/-- `c54x_revcarry`: add or subtract with the carry running from high to low. -/
def revcarry (ar ar0 : Word) (sub : Bool) : Word :=
  bitrev16 (if sub then bitrev16 ar - bitrev16 ar0 else bitrev16 ar + bitrev16 ar0)

end Qosmo.C54x
