import Qosmo.C54x.Exec.Alu

/-!
# Qosmo.C54x.Exec.Control

The instructions of `c54x_exec.c` that move PC or arm a delayed transfer or a
repeat: branches, calls and returns (near and far, immediate and delayed), RPT and
RPTB, TRAP, INTR and RESET. XC, which skips words, is here too although it only
falls through.
-/

namespace Qosmo.C54x

/-! ### Stack frames and targets -/

/-- `c54x_far_push`: the return address, then XPC on top. -/
def farPush (retPc : Word) : Exec Unit := do
  push retPc
  push (← get).xpc

def lowWord (v : Acc) : Word := v.setWidth 16

/-- The page of the far target held by an accumulator. -/
def pageOf (v : Acc) : Word := (hi16 v) &&& 3

def setXpc (v : Word) : Exec Unit := modify fun s => { s with xpc := v }

def delayTo (tgt : Word) (consumed : Nat) : Exec Flow := do
  return .delayed tgt (← done consumed)

def fallThrough (consumed : Nat) : Exec Flow := do
  return .next (← done consumed)

/-- Interrupts are enabled again. -/
def clearIntm : Exec Unit := putSt1 St1.intm false

/-- The vector of a software interrupt. -/
def softVector (s : Cpu) (k : Word) : Word := (s.vector (k &&& 0x1F).toNat).setWidth 16

/-! ### Conditions of XC and of the returns -/

/-- The condition of XC: the codes of the manual, then any mixture of them read as
a disjunction. Unlike `condTrue` it uses the flags OVA and OVB. -/
def xcCond (cc : Word) : Exec Bool := do
  let s ← get
  let c := bitSet s.st0 St0.c
  let tc := bitSet s.st0 St0.tc
  let acc := (sext40 (s.acc (bitSet cc 3))).toInt
  match cc.toNat with
  | 0x00 => return true
  | 0x0C => return c
  | 0x08 => return !c
  | 0x30 => return tc
  | 0x20 => return !tc
  | 0x45 | 0x4D => return decide (acc = 0)
  | 0x44 | 0x4C => return decide (acc ≠ 0)
  | 0x46 | 0x4E => return decide (0 < acc)
  | 0x42 | 0x4A => return decide (0 ≤ acc)
  | 0x43 | 0x4B => return decide (acc < 0)
  | 0x47 | 0x4F => return decide (acc ≤ 0)
  | 0x70 => do putSt0 St0.ova false; return bitSet s.st0 St0.ova
  | 0x60 => do putSt0 St0.ova false; return !bitSet s.st0 St0.ova
  | 0x78 => do putSt0 St0.ovb false; return bitSet s.st0 St0.ovb
  | 0x68 => do putSt0 St0.ovb false; return !bitSet s.st0 St0.ovb
  | _ =>
    let r := (cc &&& 0x0C != 0 && (if bitSet cc 2 then c else !c)) ||
      (cc &&& 0x30 != 0 && (if bitSet cc 4 then tc else !tc))
    if bitSet cc 6 then
      return match accTest (cc &&& 7).toNat acc with
        | some b => r || b
        | none => true
    return r || (cc &&& 0x70 != 0 && bitSet s.st0 (ovBit (bitSet cc 3)))

/-- The condition of RC and RCD: like `condTrue`, but the overflow bits are only
read, and the TC and C tests are alternatives. -/
def retCond (cc : Word) : Exec Bool := do
  let s ← get
  let acc := (sext40 (s.acc (bitSet cc 3))).toInt
  let ov := bitSet s.st0 (if bitSet cc 3 then 9 else 8)
  let c := bitSet s.st0 St0.c
  let tc := bitSet s.st0 St0.tc
  if cc = 0 then return true
  else if bitSet cc 6 then
    if cc &&& 0x70 = 0x70 then return ov
    else if cc &&& 0x70 = 0x60 then return !ov
    else return (accTest (cc &&& 7).toNat acc).getD true
  else if cc &&& 0x30 = 0x30 then return tc
  else if cc &&& 0x30 = 0x20 then return !tc
  else if cc &&& 0x0C = 0x0C then return c
  else if cc &&& 0x0C = 0x08 then return !c
  else return true

/-- XC n, cond: skip `n` words when the condition fails. -/
def execXc (nInsns : Nat) (op : Word) : Exec Nat := do
  if ← xcCond (op &&& 0xFF) then done 1 else return 1 + nInsns

/-! ### Branches and calls through an accumulator -/

/-- BACC / CALA. A call from the task list at 0xBC36 to an address outside the ROM
leaves the list instead (`CALYPSO_C54X_GARDE_LISTE`). -/
def execBacc (op : Word) : Exec Flow := do
  let s ← get
  let isCall := bitSet op 0
  let tgt := lowWord (s.acc (dstB op))
  if isCall && (← pcPlus 0) == 0xBC36 && decide (tgt < 0x7000) then
    return .goto (s.prog 0xBC33)
  if isCall then push (← pcPlus 1)
  return .goto tgt

/-- FBACC / FCALA. -/
def execFbacc (op : Word) : Exec Flow := do
  let acc := (← get).acc (dstB op)
  if bitSet op 0 then farPush (← pcPlus 1)
  setXpc (pageOf acc)
  return .goto (lowWord acc)

/-- BACCD / CALAD: the return address is after the two delay-slot words. -/
def execBaccd (op : Word) : Exec Flow := do
  let tgt := lowWord ((← get).acc (dstB op))
  if bitSet op 0 then push (← pcPlus 3)
  delayTo tgt 1

/-- FBACCD / FCALAD. -/
def execFbaccd (op : Word) : Exec Flow := do
  let acc := (← get).acc (dstB op)
  if bitSet op 0 then farPush (← pcPlus 3)
  setXpc (pageOf acc)
  delayTo (lowWord acc) 1

/-! ### Returns -/

def execRetf (_ : Word) : Exec Flow := do
  let ra ← pop
  clearIntm
  return .goto ra

/-- RETE with `top` on top of the stack: a word of at most 3 is taken for the XPC of
the frame; otherwise the frame has no XPC word. -/
def reteFrom (top : Word) : Exec Flow := do
  if top ≤ 3 then
    setXpc (top &&& 3)
    modify fun s => { s with sp := s.sp + 1 }
  let ra ← pop
  clearIntm
  return .goto ra

def execRete (_ : Word) : Exec Flow := do reteFrom (← rd (← get).sp)

/-- FRET / FRETE. -/
def execFret (op : Word) : Exec Flow := do
  let nx ← pop
  let ra ← pop
  if bitSet op 0 then clearIntm
  setXpc (nx &&& 3)
  return .goto ra

/-- RETED and RETFD: one word is popped, whatever the frame. -/
def execReted (_ : Word) : Exec Flow := do
  let ra ← pop
  clearIntm
  delayTo ra 1

/-- FRETD / FRETED. -/
def execFretd (op : Word) : Exec Flow := do
  let nx ← pop
  setXpc (nx &&& 3)
  let ra ← pop
  if bitSet op 0 then clearIntm
  delayTo ra 1

def execRc (op : Word) : Exec Flow := do
  if ← retCond (op &&& 0xFF) then return .goto (← pop) else fallThrough 1

def execRcd (op : Word) : Exec Flow := do
  if ← retCond (op &&& 0xFF) then delayTo (← pop) 1 else fallThrough 1

/-! ### Branches and calls with an address word -/

def execB (_ : Word) : Exec Flow := do return .goto (← fetchAt 1)

def execCall (_ : Word) : Exec Flow := do
  let op2 ← fetchAt 1
  push (← pcPlus 2)
  return .goto op2

def execBd (_ : Word) : Exec Flow := do delayTo (← fetchAt 1) 2

def execCalld (_ : Word) : Exec Flow := do
  let op2 ← fetchAt 1
  push (← pcPlus 4)
  delayTo op2 2

/-- TC is read as the flag right after CMPM/BITF, or while nothing has touched it
since; otherwise the conditions TC and NTC test A against zero. -/
def tcStrict (s : Cpu) : Bool := s.prevOp &&& 0xFE00 == 0x6000 || s.tcFiable

/-- `acc_signed`: sign extension of an accumulator read in place. -/
def accSigned (v : Acc) : Int := (if bitSet v 39 then v ||| ~~~ mask40 else v).toInt

/-- BC pmad, TC / NTC (0xF82x, 0xF83x). -/
def execBcTc (op : Word) : Exec Flow := do
  let s ← get
  let op2 ← fetchAt 1
  let ntc := op &&& 0xF0 == 0x20
  let take := if tcStrict s then bitSet s.st0 St0.tc != ntc
    else decide (accSigned s.a = 0) != ntc
  if take then return .goto op2 else fallThrough 2

def execFb (op : Word) : Exec Flow := do
  let op2 ← fetchAt 1
  setXpc (op &&& 3)
  return .goto op2

/-- BANZ on a plain register (0xF86x, 0xF87x). -/
def execBanzAr (op : Word) : Exec Flow := do
  let s ← get
  let op2 ← fetchAt 1
  let n : BitVec 3 := op.setWidth 3
  if s.ar n ≠ 0 then
    modify fun s => s.setAr n (s.ar n - 1)
    return .goto op2
  return .next 2

/-- BC pmad on an accumulator test (0xF84x, 0xF85x). -/
def execBcAcc (op : Word) : Exec Flow := do
  let s ← get
  let op2 ← fetchAt 1
  let acc := accSigned (s.acc (bitSet op 3))
  if (accTest (op &&& 7).toNat acc).getD false then return .goto op2 else fallThrough 2

/-- BANZ with an address mode (0xF80x, 0xF81x). -/
def execBanzSmem (op : Word) : Exec Flow := do
  let oldAr := (← get).ar (op.setWidth 3)
  let _ ← resolveSmem op
  let op2 ← fetchAt 1
  if oldAr ≠ 0 then return .goto op2 else fallThrough 2

/-- CC, and FCALL when bit 7 is set (0xF9). -/
def execCc (op : Word) : Exec Flow := do
  let op2 ← fetchAt 1
  if bitSet op 7 then
    farPush (← pcPlus 2)
    setXpc (op &&& 3)
    return .goto op2
  if ← condTrue (op &&& 0x7F) then
    push (← pcPlus 2)
    return .goto op2
  fallThrough 2

/-- BCD, and FBD when bit 7 is set (0xFA). A code without accumulator test whose TC
test does not apply branches at once, without delay slots. -/
def execBcd (op : Word) : Exec Flow := do
  let s ← get
  let op2 ← fetchAt 1
  if bitSet op 7 then
    setXpc (op &&& 3)
    delayTo op2 2
  else if (op &&& 0xF0 == 0x20 || op &&& 0xF0 == 0x30) && tcStrict s then
    if bitSet s.st0 St0.tc != (op &&& 0xF0 == 0x20) then delayTo op2 2 else fallThrough 2
  else if bitSet op 6 then
    if ← condTrue (op &&& 0x7F) then delayTo op2 2 else fallThrough 2
  else return .goto op2

/-- CCD, and FCALLD when bit 7 is set (0xFB). -/
def execCcd (op : Word) : Exec Flow := do
  let op2 ← fetchAt 1
  if bitSet op 7 then
    farPush (← pcPlus 4)
    setXpc (op &&& 3)
    delayTo op2 2
  else if ← condTrue (op &&& 0x7F) then
    push (← pcPlus 4)
    delayTo op2 2
  else fallThrough 2

/-- The conditional branch of 0xED. -/
def execBcEd (op : Word) : Exec Flow := do
  let s ← get
  let op2 ← fetchAt 1
  let take := match (op &&& 0xFF).toNat with
    | 0x08 => decide (s.b.toInt < 0)
    | 0x02 => decide (s.a ≠ 0)
    | 0x0A => decide (s.b ≠ 0)
    | 0x03 => decide (s.a = 0)
    | 0x0B => decide (s.b = 0)
    | 0x04 => decide (0 < s.a.toInt)
    | 0x0C => decide (0 < s.b.toInt)
    | 0x40 => bitSet s.st0 St0.tc
    | 0x41 => !bitSet s.st0 St0.tc
    | _ => true
  if take then return .goto op2 else fallThrough 2

/-! ### Repeats -/

/-- Arm a single-instruction repeat; the repeated instruction starts `n` words on. -/
def armRpt (count : Word) (n : Nat) : Exec Flow := do
  modify fun s => { s with rptFresh := true }
  return .rpt count n

/-- RPT #k8 (0xEC, 0xF5). -/
def execRptK8 (op : Word) : Exec Flow := armRpt (op &&& 0xFF) 1

def execRptLk (_ : Word) : Exec Flow := do armRpt (← fetchAt 1) 2

/-- RPTZ: clear an accumulator, then repeat. -/
def execRptz (isB : Bool) (_ : Word) : Exec Flow := do
  let op2 ← fetchAt 1
  setAcc isB 0
  armRpt op2 2

def execRptSmem (op : Word) : Exec Flow := do
  let addr ← resolveSmem op
  let val ← rd addr
  armRpt val (← done 1)

/-- RPTB and RPTBD: the block starts `start` words on and ends at the address word. -/
def execRptb (start : Nat) (_ : Word) : Exec Flow := do
  let op2 ← fetchAt 1
  let rsa ← pcPlus start
  modify fun s => { s with rea := op2, rsa := rsa, st1 := setBit s.st1 St1.braf }
  return .rptb (← done 2)

/-! ### TRAP, INTR, RESET -/

def execTrap (op : Word) : Exec Flow := do
  push (← pcPlus 1)
  return .goto (softVector (← get) op)

/-- INTR k: the vector is taken from IPTR before the push. -/
def execIntr (op : Word) : Exec Flow := do
  let tgt := softVector (← get) op
  push (← pcPlus 1)
  putSt1 St1.intm true
  let k := (op &&& 0x1F).toNat
  if 16 ≤ k then modify fun s => { s with ifr := clearBit s.ifr (k - 16) }
  return .goto tgt

def execReset (_ : Word) : Exec Flow := do
  let tgt := softVector (← get) 0
  -- ST0 = C | TC, ST1 = INTM | SXM | XF
  modify fun s => { s with st0 := 0x1800, st1 := 0x2900, ifr := 0 }
  return .reset tgt

end Qosmo.C54x
