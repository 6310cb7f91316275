import Qosmo.C54x.Exec.Memory

/-!
# Qosmo.C54x.Exec.Smem

Instructions between an accumulator and one memory operand: additions and loads
(0x0xxx, 0x1xxx), the multiplier (0x2xxx, 0x3xxx), stack and control-register moves
(0x4xxx), long operands (0x5xxx) and stores (0x8xxx, 0x9xxx).
-/

namespace Qosmo.C54x

def loadSmem (op : Word) : Exec Word := do rd (← resolveSmem op)

/-- The shift count in T: six bits, signed. -/
def tShift (s : Cpu) : Int := (s.t.setWidth 6).toInt

/-! ### ADD, SUB (0x0xxx) -/

/-- Bits 11..9: bit 2 subtracts; of the rest, 1 is unsigned, 2 shifts by T and 3
uses the carry (as a borrow when subtracting). -/
def execAddSub (op : Word) : Exec Nat := do
  let val ← loadSmem op
  let s ← get
  let kind := ((op >>> 9) &&& 3).toNat
  let v := if kind = 1 then val.setWidth 64 else sxm s val
  let v := if kind = 2 then shiftAcc v (tShift s) else v
  let carry := bitSet s.st0 St0.c
  let acc := s.acc (dstB op)
  if bitSet op 11 then
    let c : Acc := if kind = 3 ∧ !carry then 1 else 0
    carrySub40 acc (v + c)
    setAcc (dstB op) (sext40 (acc - v - c))
  else
    let c : Acc := if kind = 3 ∧ carry then 1 else 0
    carryAdd40 acc (v + c)
    setAcc (dstB op) (sext40 (acc + v + c))
  done 1

/-! ### LD, AND, OR, XOR, SUBC (0x1xxx) -/

/-- SUBC: one step of a restoring division; C tells whether the divisor fitted. -/
def subcStep (src : Acc) (val : Word) : Bool × Acc :=
  let d := src - (val.setWidth 64 <<< 15)
  (decide (0 ≤ d.toInt), if 0 ≤ d.toInt then (d <<< 1) + 1 else src <<< 1)

def execLoad (op : Word) : Exec Nat := do
  let val ← loadSmem op
  let s ← get
  let d := dstB op
  let cur := s.acc d &&& mask40
  match ((op >>> 9) &&& 7).toNat with
  | 0x0 => setAcc d (sext40 (sxm s val))
  | 0x1 => setAcc d (sext40 (val.setWidth 64))
  | 0x2 => setAcc d (sext40 (shiftAcc (sxm s val) (tShift s)))
  | 0x3 => setAcc d (sext40 ((sxm s val <<< 16) + 0x8000))
  | 0x4 => setAcc d (sext40 (cur &&& val.setWidth 64))
  | 0x5 => setAcc d (sext40 (cur ||| val.setWidth 64))
  | 0x6 => setAcc d (sext40 (cur ^^^ val.setWidth 64))
  | _ => do
    let r := subcStep (sext40 (s.acc d)) val
    putSt0 St0.c r.1
    setAcc d (sext40 r.2)
  done 1

/-! ### The multiplier (0x2xxx, 0x3xxx) -/

/-- `(int32_t)` of a product. -/
def trunc32 (p : Acc) : Acc := (p.setWidth 32).signExtend 64

/-- Rounding of a product or a sum to its high word. -/
def roundHi (p : Acc) : Acc := (p + 0x8000) &&& ~~~ 0xFFFF#64

def setT (v : Word) : Exec Unit := modify fun s => { s with t := v }

/-- MAC / MAS Smem (0x28..0x2B): bit 9 subtracts; the product is an `int32_t`. -/
def execMac (op : Word) : Exec Nat := do
  let v ← loadSmem op
  let s ← get
  let term := trunc32 (frct s (mul16 s.t v))
  let acc := s.acc (dstB op)
  setAcc (dstB op) (sext40 (if bitSet op 9 then acc - term else acc + term))
  done 1

/-- MASR Smem (0x2E, 0x2F): the product is rounded before it is subtracted. -/
def execMasr (op : Word) : Exec Nat := do
  let v ← loadSmem op
  let s ← get
  let prod := trunc32 (roundHi (frct s (mul16 s.t v)))
  setAcc (dstB op) (sext40 (s.acc (dstB op) - prod))
  done 1

/-- The product of the high word of A and a memory word, loaded into T. -/
def ahiProduct (op : Word) : Exec Acc := do
  let v ← loadSmem op
  let s ← get
  setT v
  return frct s (mul16 (hi16 s.a) v)

/-- MACA Smem (0x35). -/
def execMaca (op : Word) : Exec Nat := do
  let p ← ahiProduct op
  setAcc true (sext40 ((← get).b + trunc32 p))
  done 1

/-- MASA Smem (0x33). -/
def execMasa (op : Word) : Exec Nat := do
  let p ← ahiProduct op
  setAcc true (sext40 ((← get).b - trunc32 p))
  done 1

/-- MACAR Smem (0x37). -/
def execMacar (op : Word) : Exec Nat := do
  let p ← ahiProduct op
  setAcc true (sext40 ((← get).b + trunc32 (roundHi p)))
  done 1

/-- MPYA Smem (0x31). -/
def execMpya (op : Word) : Exec Nat := do
  let p ← ahiProduct op
  setAcc true (sext40 (trunc32 p))
  done 1

/-- MPY / MPYR / MPYU / SQUR Smem (0x20..0x27). -/
def execMpy (op : Word) : Exec Nat := do
  let v ← loadSmem op
  let s ← get
  let d := dstB op
  match ((op >>> 9) &&& 3).toNat with
  | 0 => setAcc d (sext40 (frct s (mul16 s.t v)))
  | 1 => setAcc d (sext40 (roundHi (frct s (mul16 s.t v))))
  | 2 => setAcc d (sext40 (frct s (s.t.setWidth 64 * v.setWidth 64)))
  | _ => do
    setT v
    setAcc d (sext40 (frct s (mul16 v v)))
  done 1

/-- The remaining codes of 0x2xxx (0x2C, 0x2D) subtract the full product. -/
def execMas (op : Word) : Exec Nat := do
  let v ← loadSmem op
  let s ← get
  setAcc (dstB op) (sext40 (s.acc (dstB op) - frct s (mul16 s.t v)))
  done 1

/-- LD Smem, T (0x30). -/
def execLdT (op : Word) : Exec Nat := do
  setT (← loadSmem op)
  done 1

def setAsm (v : Word) : Exec Unit :=
  modify fun s => { s with st1 := (s.st1 &&& ~~~ St1.asmMask) ||| (v &&& St1.asmMask) }

/-- LD Smem, ASM (0x32). -/
def execLdAsmSmem (op : Word) : Exec Nat := do
  setAsm (← loadSmem op)
  done 1

/-- ADD Smem, 16, src, dst (0x3C..0x3F). -/
def execAdd16 (op : Word) : Exec Nat := do
  let v ← loadSmem op
  let s ← get
  setAcc (dstB op) (sext40 (s.acc (srcB op) + smem16Shifted s v))
  done 1

/-- SUB Smem, 16, src, dst (0x40..0x43). -/
def execSub16 (op : Word) : Exec Nat := do
  let v ← loadSmem op
  let s ← get
  setAcc (dstB op) (sext40 (s.acc (srcB op) - smem16Shifted s v))
  done 1

/-- LD Smem, 16, dst (0x44, 0x45). -/
def execLd16 (op : Word) : Exec Nat := do
  let v ← loadSmem op
  setAcc (dstB op) (sext40 (smem16Shifted (← get) v))
  done 1

/-- BITT Smem (0x34): TC is the bit T numbers from the left. -/
def execBitt (op : Word) : Exec Nat := do
  let v ← loadSmem op
  putSt0 St0.tc (bitSet v (15 - ((← get).t &&& 0xF).toNat))
  done 1

/-- SQURA Smem (0x38, 0x39) and SQURS Smem (0x3A, 0x3B). -/
def execSqurAcc (sub : Bool) (op : Word) : Exec Nat := do
  let v ← loadSmem op
  let s ← get
  let sq := frct s (mul16 v v)
  let acc := s.acc (dstB op)
  setAcc (dstB op) (sext40 (if sub then acc - sq else acc + sq))
  setT v
  done 1

/-- A(32..16) as a signed 17-bit number. -/
def ahi17 (v : Acc) : Acc := ((v >>> 16).setWidth 17).signExtend 64

/-- POLY Smem (0x36). -/
def execPoly (op : Word) : Exec Nat := do
  let v ← loadSmem op
  let s ← get
  let prod := frct s (ahi17 (sext40 s.a) * s.t.signExtend 64)
  setAcc false (sext40 (roundHi (prod + s.b)))
  setAcc true (sext40 (smem16Shifted s v))
  done 1

/-! ### Stack and control registers (0x4xxx) -/

/-- LD Smem, DP (0x46). -/
def execLdDp (op : Word) : Exec Nat := do
  let v ← loadSmem op
  modify fun s => { s with st0 := (s.st0 &&& ~~~ St0.dpMask) ||| (v &&& St0.dpMask) }
  done 1

/-- LDM MMR, dst (0x48, 0x49). -/
def execLdm (op : Word) : Exec Nat := do
  let v ← rd (← resolveMmr op)
  setAcc (dstB op) (v.setWidth 64)
  done 1

/-- PSHM MMR (0x4A). -/
def execPshm (op : Word) : Exec Nat := do
  push (← rd (op &&& 0x7F))
  done 1

/-- PSHD Smem (0x4B). -/
def execPshd (op : Word) : Exec Nat := do
  push (← loadSmem op)
  done 1

/-- LTD Smem (0x4C): load T and move the word up. -/
def execLtd (op : Word) : Exec Nat := do
  let addr ← resolveSmem op
  let v ← rd addr
  setT v
  wr (addr + 1) v
  done 1

/-- DELAY Smem (0x4D). -/
def execDelay (op : Word) : Exec Nat := do
  let addr ← resolveSmem op
  wr (addr + 1) (← rd addr)
  done 1

/-- DST src, Lmem (0x4E, 0x4F). -/
def execDst (op : Word) : Exec Nat := do
  let v := (← get).acc (dstB op)
  let a ← resolveLmem op
  wr a (hi16 v)
  wr (a ^^^ 1) (lowWord v)
  done 1

/-! ### Long operands (0x5xxx) -/

/-- Two 16-bit halves added or subtracted separately (C16 set). -/
def dual16 (hi lo : Acc) : Acc := (hi <<< 16) ||| (lo &&& 0xFFFF)

/-- Carry of a 16-bit addition, and complement of the borrow of a subtraction. -/
def carryAdd16 (x y : Word) : Exec Unit :=
  putSt0 St0.c (decide (0x10000 ≤ x.toNat + y.toNat))
def carrySub16 (x y : Word) : Exec Unit := putSt0 St0.c (decide (y ≤ x))

/-- DADD, DSUB, DLD, DRSUB, DADST, DSUBT and DSADT. -/
def execLong (op : Word) : Exec Nat := do
  let laddr ← resolveLmem op
  let lhi ← rd laddr
  let llo ← rd (laddr ^^^ 1)
  let s ← get
  let c16 := bitSet s.st1 St1.c16
  let pair (x y : Word) : Acc :=
    let w : BitVec 32 := (x.setWidth 32 <<< 16) ||| y.setWidth 32
    if bitSet s.st1 St1.sxm then w.signExtend 64 else w.setWidth 64
  let lmem := pair lhi llo
  let d := dstB op
  let h : Acc := lhi.signExtend 64
  let l : Acc := llo.signExtend 64
  let t : Acc := s.t.signExtend 64
  let dv := s.acc d
  let dh : Acc := (hi16 dv).signExtend 64
  let dl : Acc := (lowWord dv).signExtend 64
  let kind := ((op >>> 8) &&& 0xF).toNat
  if kind ≤ 0x3 then
    let sv := s.acc (srcB op)
    if c16 then
      carryAdd16 (hi16 sv) lhi
      setAcc d (sext40 (dual16 ((hi16 sv).signExtend 64 + h) ((lowWord sv).signExtend 64 + l)))
    else
      carryAdd40 sv lmem
      setAcc d (sext40 (sv + lmem))
  else if kind ≤ 0x5 then
    if c16 then
      carrySub16 (hi16 dv) lhi
      setAcc d (sext40 (dual16 (dh - h) (dl - l)))
    else
      carrySub40 dv lmem
      setAcc d (sext40 (dv - lmem))
  else if kind ≤ 0x7 then
    setAcc d (sext40 (if c16 then dual16 h l else lmem))
  else if kind ≤ 0x9 then
    if c16 then
      carrySub16 lhi (hi16 dv)
      setAcc d (sext40 (dual16 (h - dh) (l - dl)))
    else
      carrySub40 lmem dv
      setAcc d (sext40 (lmem - dv))
  else
    -- T on both halves: the high half adds up to 0x5B, the low half from 0x5E on
    let addHi := decide (kind ≤ 0xB)
    if c16 then
      if addHi then carryAdd16 lhi s.t else carrySub16 lhi s.t
      setAcc d (sext40 (dual16 (if addHi then h + t else h - t)
        (if kind ≤ 0xD then l - t else l + t)))
    else
      let tt := pair s.t s.t
      if addHi then carryAdd40 lmem tt else carrySub40 lmem tt
      setAcc d (sext40 (if addHi then lmem + tt else lmem - tt))
  done 1

/-! ### Stores (0x8xxx, 0x9xxx) -/

/-- STL and STH, with the source shifted by ASM or not. -/
def execStore (part : Acc → Word) (useAsm : Bool) (op : Word) : Exec Nat := do
  let addr ← resolveSmem op
  let s ← get
  let v := s.acc (dstB op)
  wr addr (part (if useAsm then shiftAcc v s.asmShift else v))
  done 1

/-- ST T, Smem (0x8C) and ST TRN, Smem (0x8D). -/
def execStReg (r : Cpu → Word) (op : Word) : Exec Nat := do
  let addr ← resolveSmem op
  wr addr (r (← get))
  done 1

/-- STLM src, MMR (0x88, 0x89). -/
def execStlm (op : Word) : Exec Nat := do
  let mmr ← resolveMmr op
  wr mmr (lowWord ((← get).acc (dstB op)))
  done 1

/-- POPM MMR (0x8A). -/
def execPopm (op : Word) : Exec Nat := do
  wr (op &&& 0x7F) (← pop)
  done 1

/-- POPD Smem (0x8B). -/
def execPopd (op : Word) : Exec Nat := do
  let addr ← resolveSmem op
  wr addr (← pop)
  done 1

/-- CMPS src, Smem (0x8E, 0x8F): keep the larger half and record the decision. -/
def execCmps (op : Word) : Exec Nat := do
  let addr ← resolveSmem op
  let acc := (← get).acc (dstB op)
  let hi := hi16 acc
  let lo := lowWord acc
  modify fun s => { s with trn := s.trn <<< 1 }
  if lo.toInt < hi.toInt then
    wr addr hi
    modify fun s => { s with trn := clearBit s.trn 0, st0 := clearBit s.st0 St0.tc }
  else
    wr addr lo
    modify fun s => { s with trn := setBit s.trn 0, st0 := setBit s.st0 St0.tc }
  done 1

/-- ADD / SUB Xmem, SHFT, src (0x90..0x93). -/
def execAddX (op : Word) : Exec Nat := do
  let xv ← rd (← resolveXmem op)
  let s ← get
  let v := sxm s xv <<< (op &&& 0xF).toNat
  let acc := s.acc (dstB op)
  if bitSet op 9 then
    carrySub40 acc v
    setAcc (dstB op) (sext40 (acc - v))
  else
    carryAdd40 acc v
    setAcc (dstB op) (sext40 (acc + v))
  done 1

/-- LD Xmem, SHFT, dst (0x94, 0x95). -/
def execLdX (op : Word) : Exec Nat := do
  let v ← rd (← resolveXmem op)
  setAcc (dstB op) (sext40 (sxm (← get) v <<< (op &&& 0xF).toNat))
  return 1

/-- BIT Xmem, BITC (0x96). -/
def execBit (op : Word) : Exec Nat := do
  let v ← rd (← resolveXmem op)
  putSt0 St0.tc (bitSet v (15 - (op &&& 0xF).toNat))
  return 1

/-- 0x97: store the word after the opcode. -/
def execStLk97 (op : Word) : Exec Nat := do
  let addr ← resolveSmem op
  wr addr (← fetchAt 1)
  done 2

/-- STL / STH src, SHFT, Xmem (0x98..0x9B). -/
def execStX (op : Word) : Exec Nat := do
  let a ← resolveXmem op
  let v := (← get).acc (dstB op) <<< (op &&& 0xF).toNat
  wr a (if bitSet op 9 then hi16 v else lowWord v)
  return 1

/-- STRCD, SRCCD and SACCD (0x9C..0x9F): store T, BRC or an accumulator when the
condition holds; the memory word is rewritten as it is otherwise. -/
def execCondStore (op : Word) : Exec Nat := do
  let xaddr ← resolveXmem op
  let s ← get
  let ca := (sext40 (s.acc (bitSet op 3))).toInt
  let take := (accTest (op &&& 7).toNat ca).getD false
  let val := if !take then dataRead s xaddr
    else match ((op >>> 8) &&& 3).toNat with
      | 0 => s.t
      | 1 => s.brc
      | _ => hi16 (shiftAcc (s.acc (dstB op)) s.asmShift)
  wr xaddr val
  done 1

end Qosmo.C54x
