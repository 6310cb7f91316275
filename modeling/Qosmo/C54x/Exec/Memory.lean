import Qosmo.C54x.Exec.Control

/-!
# Qosmo.C54x.Exec.Memory

The opcodes 0x6xxx and 0x7xxx: stores and moves, I/O ports, transfers between
program and data memory, operations on a memory word with an immediate, and the
BANZ branches.
-/

namespace Qosmo.C54x

def fetchOp2 : Exec Word := do fetchAt (1 + (← get).lkUsed.toNat)

/-- The program address of a repeated transfer: the base on the first access,
then one further each time. -/
def progPointer (base : Word) : Exec Word := do
  let c ← read
  let s ← get
  if !c.rptActive || s.rptFresh then
    modify fun s => { s with rptFresh := false }
    return base
  return s.mvpdSrc

/-- The next access of a repeated transfer starts after `p`. -/
def advancePointer (p : Word) : Exec Unit := modify fun s => { s with mvpdSrc := p + 1 }

/-! ### Program memory -/

def execReada (op : Word) : Exec Nat := do
  let addr ← resolveSmem op
  let psrc ← progPointer (lowWord (← get).a)
  wr addr (progFetch (← get) psrc)
  advancePointer psrc
  done 1

/-- WRITA Smem: under a repeat the pointer is taken as it stands, fresh or not. -/
def execWrita (op : Word) : Exec Nat := do
  let addr ← resolveSmem op
  let c ← read
  let s ← get
  let pdst := if c.rptActive then s.mvpdSrc else lowWord s.a
  let v ← rd addr
  modify fun s => progWrite s pdst v
  advancePointer pdst
  done 1

def execMvpd (op : Word) : Exec Nat := do
  let addr ← resolveSmem op
  let padr ← progPointer (← fetchOp2)
  wr addr (progFetch (← get) padr)
  advancePointer padr
  done 2

def execMvdp (op : Word) : Exec Nat := do
  let addr ← resolveSmem op
  let padr ← progPointer (← fetchOp2)
  let v ← rd addr
  modify fun s => progWrite s padr v
  advancePointer padr
  done 2

/-- MACP and MACD (bit 9): accumulate Smem times a program word; MACD also moves
the data word up. -/
def execMacp (op : Word) : Exec Nat := do
  let addr ← resolveSmem op
  let psrc ← progPointer (← fetchOp2)
  let sval ← rd addr
  let s ← get
  let prod := frct s (mul16 sval (progFetch s psrc))
  setAcc (dstB op) (sext40 (s.acc (dstB op) + prod))
  modify fun s => { s with t := sval }
  if bitSet op 9 then wr (addr + 1) sval
  advancePointer psrc
  done 2

/-! ### Data memory -/

/-- MAR Smem: the operand is only resolved, for its effect on the registers. -/
def execMar (op : Word) : Exec Nat := do
  let _ ← resolveSmem op
  done 1

def execStLk (op : Word) : Exec Nat := do
  let addr ← resolveSmem op
  wr addr (← fetchOp2)
  done 2

def execStm (op : Word) : Exec Nat := do
  let mmr ← resolveMmr op
  wr mmr (← fetchAt 1)
  done 2

def execPortw (op : Word) : Exec Nat := do
  let addr ← resolveSmem op
  let pa ← fetchOp2
  let c ← read
  let v ← rd addr
  modify fun s => { s with ifr := s.ifr ||| c.bus.portw pa v }
  done 2

/-- PORTR PA, Smem: a port nobody answers leaves the operand alone. -/
def execPortr (op : Word) : Exec Nat := do
  let addr ← resolveSmem op
  let pa ← fetchOp2
  let c ← read
  match c.bus.portr pa with
  | some v => wr addr v
  | none => pure ()
  done 2

def execMvmd (op : Word) : Exec Nat := do
  let dmad ← fetchAt 1
  wr dmad (← rd (op &&& 0x7F))
  done 2

def execMvdm (op : Word) : Exec Nat := do
  let dmad ← fetchAt 1
  wr (op &&& 0xFF) (← rd dmad)
  return 2

/-- The operand of MVDK and MVKD: the modes with an `lk` word add it linearly and
always move ARP. -/
def mvkOperand (op : Word) : Exec (Word × Word) := do
  modify fun s => { s with lkUsed := false }
  if bitSet op 7 && decide (0xC ≤ modOf op) then
    let lk ← fetchAt 1
    let dmad ← fetchAt 2
    let n : BitVec 3 := op.setWidth 3
    let ar := (← get).ar n
    let addr := if modOf op = 0xF then lk else ar + lk
    if modOf op = 0xD ∨ modOf op = 0xE then modify fun s => s.setAr n (ar + lk)
    modify fun s => { setArp s n with lkUsed := true }
    return (addr, dmad)
  else
    let dmad ← fetchAt 1
    let addr ← resolveSmem op
    return (addr, dmad)

/-- The `dmad` side of a repeated MVDK or MVKD. -/
def dmadPointer (dmad : Word) : Exec Word := do
  if (← read).rptActive then
    let p ← progPointer dmad
    advancePointer p
    return p
  return dmad

def execMvkd (op : Word) : Exec Nat := do
  let (addr, dmad) ← mvkOperand op
  let dmad ← dmadPointer dmad
  wr addr (← rd dmad)
  done 2

def execMvdk (op : Word) : Exec Nat := do
  let (addr, dmad) ← mvkOperand op
  let dmad ← dmadPointer dmad
  wr dmad (← rd addr)
  done 2

/-! ### A memory word and an immediate -/

def execCmpm (op : Word) : Exec Nat := do
  let addr ← resolveSmem op
  let lk ← fetchOp2
  putSt0 St0.tc (decide ((← rd addr) = lk))
  done 2

def execBitf (op : Word) : Exec Nat := do
  let addr ← resolveSmem op
  let lk ← fetchOp2
  putSt0 St0.tc (decide ((← rd addr) &&& lk ≠ 0))
  done 2

def execMpyLk (op : Word) : Exec Nat := do
  let addr ← resolveSmem op
  let lk ← fetchOp2
  let sval ← rd addr
  let s ← get
  setAcc (dstB op) (sext40 (frct s (mul16 sval lk)))
  modify fun s => { s with t := sval }
  done 2

def execMacLk (op : Word) : Exec Nat := do
  let addr ← resolveSmem op
  let lk ← fetchOp2
  let sval ← rd addr
  let s ← get
  setAcc (dstB op) (sext40 (s.acc (srcB op) + frct s (mul16 sval lk)))
  modify fun s => { s with t := sval }
  done 2

/-- ANDM / ORM / XORM / ADDM: read, combine with the immediate, write back. -/
def rmw (f : Cpu → Word → Word → Word) (op : Word) : Exec Nat := do
  let addr ← resolveSmem op
  let lk ← fetchOp2
  let v ← rd addr
  wr addr (f (← get) v lk)
  done 2

def execAndm : Word → Exec Nat := rmw fun _ v lk => v &&& lk
def execOrm : Word → Exec Nat := rmw fun _ v lk => v ||| lk
def execXorm : Word → Exec Nat := rmw fun _ v lk => v ^^^ lk

/-- The sum of ADDM, saturated to a word in overflow mode. -/
def addmSum (s : Cpu) (v lk : Word) : Word :=
  if bitSet s.st1 St1.ovm then
    let r : Int := if bitSet s.st1 St1.sxm then v.toInt + lk.toInt else v.toNat + lk.toNat
    if 0x7FFF < r then 0x7FFF else if r < -0x8000 then 0x8000 else v + lk
  else v + lk

def execAddm : Word → Exec Nat := rmw addmSum

/-- `c54x_banz_value`: the modes with an `lk` word test the address they form. -/
def banzValue (op pre ea : Word) : Word :=
  if bitSet op 7 && decide (0xC ≤ modOf op) then ea else pre

def execBanz (op : Word) : Exec Flow := do
  let pre := (← get).ar (op.setWidth 3)
  let ea ← resolveSmem op
  let pmad ← fetchOp2
  if banzValue op pre ea ≠ 0 then return .goto pmad else fallThrough 2

def execBanzd (op : Word) : Exec Flow := do
  let pre := (← get).ar (op.setWidth 3)
  let ea ← resolveSmem op
  let pmad ← fetchOp2
  if banzValue op pre ea ≠ 0 then delayTo pmad 2 else fallThrough 2

/-- The two-word forms of 0x6F: ADD, SUB, LD, STH and STL with a shift. -/
def exec6f (op : Word) : Exec Nat := do
  let addr ← resolveSmem op
  let op2 ← fetchOp2
  let shift := shift5 op2
  let s ← get
  let v := shiftAcc (sxm s (dataRead s addr)) shift
  let src := s.acc (dstB op2)
  match ((op2 >>> 5) &&& 7).toNat with
  | 0 => setAcc (dstB op2) (sext40 (s.acc (srcB op2) + v))
  | 1 => setAcc (dstB op2) (sext40 (s.acc (srcB op2) - v))
  | 2 => setAcc (dstB op2) (sext40 v)
  | 3 => wr addr (lowWord (shiftAcc ((hi16 src).signExtend 64) shift))
  | 4 => wr addr (lowWord (shiftAcc src shift))
  | _ => pure ()
  done 2

end Qosmo.C54x
