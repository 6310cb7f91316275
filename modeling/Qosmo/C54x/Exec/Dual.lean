import Qosmo.C54x.Exec.Smem

/-!
# Qosmo.C54x.Exec.Dual

Instructions with two memory operands or two register operands, and the parallel
forms: 0xAxxx..0xExxx, the register moves of 0xF6 and the short loads of 0xF7.
-/

namespace Qosmo.C54x

/-! ### Dual operands

Bits 7..6 and 3..2 are the post-modifications of the two operands, bits 5..4 and
1..0 their registers AR2..AR5. The instructions below read both words first and
modify the registers afterwards, X before Y. -/

def xAr (op : Word) : BitVec 3 := ((op >>> 4) &&& 3).setWidth 3 + 2
def yAr (op : Word) : BitVec 3 := (op &&& 3).setWidth 3 + 2
def xMod (op : Word) : Nat := ((op >>> 6) &&& 3).toNat
def yMod (op : Word) : Nat := ((op >>> 2) &&& 3).toNat

/-- The X and the Y word. -/
def readXY (op : Word) : Exec (Word × Word) := do
  let s ← get
  return (dataRead s (s.ar (xAr op)), dataRead s (s.ar (yAr op)))

def postXY (op : Word) : Exec Unit := do
  parPostmod (xAr op) (xMod op)
  parPostmod (yAr op) (yMod op)

/-! ### Sums, products and accumulations (0xAxxx, 0xBxxx) -/

/-- ADD Xmem, Ymem, dst (0xA0, 0xA1). -/
def execAddXY (op : Word) : Exec Nat := do
  let (x, y) ← readXY op
  setAcc (dstB op) (sext40 ((x.signExtend 64 + y.signExtend 64) <<< 16))
  postXY op
  done 1

/-- SUB Xmem, Ymem, dst (0xA2, 0xA3): the registers are modified one after the
other, before the reads. -/
def execSubXY (op : Word) : Exec Nat := do
  let xa ← resolveXmem op
  let ya ← resolveYmem op
  let x ← rd xa
  let y ← rd ya
  setAcc (dstB op) (sext40 ((x.signExtend 64 - y.signExtend 64) <<< 16))
  return 1

/-- MPY, MACSU, MAC and MACR Xmem, Ymem (0xA4..0xA7, 0xB0..0xB7). -/
def execMacXY (op : Word) : Exec Nat := do
  let (x, y) ← readXY op
  postXY op
  let s ← get
  let hi8 := (op >>> 8).toNat
  let isMpy := decide (hi8 = 0xA4 ∨ hi8 = 0xA5)
  let isMacsu := decide (hi8 = 0xA6 ∨ hi8 = 0xA7)
  let isMacr := decide (0xB4 ≤ hi8)
  let p := frct s (if isMacsu then x.setWidth 64 * y.signExtend 64 else mul16 x y)
  let p := if isMacr then roundHi p else p
  let base := s.acc (if isMpy || isMacsu then dstB op else srcB op)
  let res := if isMpy then p else base + p
  let res := if isMacr then res &&& ~~~ 0xFFFF#64 else res
  setAcc (dstB op) (sext40 res)
  setT x
  done 1

/-- MAS Xmem, Ymem (0xB8, 0xB9, 0xBB) and MASR (0xBC..0xBF), which rounds the
product. -/
def execMasXY (rnd : Bool) (op : Word) : Exec Nat := do
  let (x, y) ← readXY op
  postXY op
  let s ← get
  let p := frct s (mul16 x y)
  let p := if rnd then roundHi p else p
  setAcc (dstB op) (sext40 (s.acc (srcB op) - p))
  setT x
  done 1

/-- 0xBA: load an accumulator from a register, sign-extended. -/
def execLdmBa (op : Word) : Exec Nat := do
  let v ← rd (op &&& 0x7F)
  setAcc (bitSet op 4) (sext40 (v.signExtend 64))
  done 1

/-- LD Xmem, dst || MAC / MACR / MAS / MASR Ymem, dst_ (0xA8..0xAF): bit 10
subtracts and bit 9 rounds. -/
def execLdMac (op : Word) : Exec Nat := do
  let (x, y) ← readXY op
  let s ← get
  let p := frct s (mul16 s.t y)
  let p := if bitSet op 9 then roundHi p else p
  let other := s.acc (!dstB op)
  setAcc (!dstB op) (sext40 (if bitSet op 10 then other - p else other + p))
  setAcc (dstB op) (sext40 (x.signExtend 64 <<< 16))
  postXY op
  done 1

/-! ### ST || operation (0xCxxx, 0xDxxx) and ST || LD T (0xE4, 0xE6) -/

/-- The accumulator selected by bit 9, shifted by ASM: the word a parallel ST
stores. -/
def stWord (s : Cpu) (op : Word) : Word := hi16 (shiftAcc (s.acc (srcB op)) s.asmShift)

/-- ST src, Ymem || ADD / SUB / LD / MPY / MAC / MAS Xmem, dst. The store comes
first; the operation then reads the registers as the store left them. -/
def execStPar (op : Word) : Exec Nat := do
  let s ← get
  let (x, _) ← readXY op
  wr (s.ar (yAr op)) (stWord s op)
  let s ← get
  let xs : Acc := x.signExtend 64
  let d := dstB op
  let prod := frct s (mul16 s.t x)
  match ((op >>> 10) &&& 7).toNat with
  | 0 => setAcc d (sext40 (s.acc (!d) + (xs <<< 16)))
  | 1 => setAcc d (sext40 ((xs <<< 16) - s.acc (!d)))
  | 2 => setAcc d (sext40 (xs <<< 16))
  | 3 => setAcc d (sext40 prod)
  | _ =>
    let p := if bitSet op 10 then roundHi prod else prod
    setAcc d (sext40 (if bitSet op 11 then s.acc d - p else s.acc d + p))
  postXY op
  done 1

/-- ST src, Ymem || LD Xmem, T. -/
def execStLdT (op : Word) : Exec Nat := do
  let s ← get
  let (x, _) ← readXY op
  wr (s.ar (yAr op)) (stWord s op)
  setT x
  postXY op
  done 1

/-! ### Filters and moves (0xExxx) -/

/-- FIRS Xmem, Ymem, pmad (0xE0). -/
def execFirs (op : Word) : Exec Nat := do
  let pmad ← fetchAt 1
  let c ← read
  modify fun s =>
    if !c.rptActive || s.rptFresh then { s with firsPm := pmad, rptFresh := false }
    else { s with firsPm := s.firsPm + 1 }
  let (x, y) ← readXY op
  let s ← get
  let prod := frct s (mul16 (hi16 s.a) (progFetch s s.firsPm))
  setAcc true (sext40 (s.b + prod))
  setAcc false (sext40 ((x.signExtend 64 + y.signExtend 64) <<< 16))
  postXY op
  done 2

/-- LMS Xmem, Ymem (0xE1). -/
def execLms (op : Word) : Exec Nat := do
  let (x, y) ← readXY op
  let s ← get
  let ra := sext40 (s.a + (sxm s x <<< 16) + 0x8000)
  let rb := sext40 (s.b + frct s (mul16 x y))
  let ovm := bitSet s.st1 St1.ovm
  if ra ≠ sat32 ra then putSt0 St0.ova true
  if rb ≠ sat32 rb then putSt0 St0.ovb true
  setAcc false (if ovm then sat32 ra else ra)
  setAcc true (if ovm then sat32 rb else rb)
  postXY op
  done 1

/-- ABDST Xmem, Ymem (0xE3). -/
def execAbdst (op : Word) : Exec Nat := do
  let (x, y) ← readXY op
  let s ← get
  let ah := ahi17 s.a
  setAcc true (sext40 (s.b + if ah.toInt < 0 then -ah else ah))
  let x40 := sxm s x <<< 16
  let y40 := sxm s y <<< 16
  carrySub40 x40 y40
  setAcc false (sext40 (x40 - y40))
  postXY op
  done 1

/-- The value a dual post-modification gives to a register that held `v`. -/
def dualNext (s : Cpu) (mod : Nat) (v : Word) : Word :=
  match mod with
  | 1 => v - 1
  | 2 => v + 1
  | _ => circRef v (s.ar 0).toInt s.bk

/-- MVDD Xmem, Ymem (0xE5): both registers step from the value they had before the
move. -/
def execMvdd (op : Word) : Exec Nat := do
  let s ← get
  let xa := s.ar (xAr op)
  let ya := s.ar (yAr op)
  wr ya (dataRead s xa)
  if xMod op ≠ 0 then modify fun s => s.setAr (xAr op) (dualNext s (xMod op) xa)
  if yMod op ≠ 0 then modify fun s => s.setAr (yAr op) (dualNext s (yMod op) ya)
  done 1

/-- MVMM (0xE7): codes 0..7 are AR0..AR7, 8 is SP. -/
def execMvmm (op : Word) : Exec Nat := do
  let s ← get
  let src := (op >>> 4) &&& 0xF
  let dst := op &&& 0xF
  let val := if src ≤ 7 then s.ar (src.setWidth 3)
    else if src = 8 then s.sp
    else dataRead s (src + 0x10)
  if dst ≤ 7 then modify fun s => s.setAr (dst.setWidth 3) val
  else if dst = 8 then modify fun s => { s with sp := val }
  else wr (dst + 0x10) val
  done 1

/-- LD #k8, dst (0xE8, 0xE9). -/
def execLdK8 (op : Word) : Exec Nat := do
  setAcc (dstB op) ((op &&& 0xFF).setWidth 64)
  done 1

/-- LD #k9, DP (0xEA, 0xEB). -/
def execLdDpK9 (op : Word) : Exec Nat := do
  modify fun s => { s with st0 := (s.st0 &&& ~~~ St0.dpMask) ||| (op &&& 0x1FF) }
  done 1

/-- FRAME k (0xEE). -/
def execFrame (op : Word) : Exec Nat := do
  modify fun s => { s with sp := s.sp + (op.setWidth 8).signExtend 16 }
  done 1

/-- LD #k5, ASM (0xED00..0xED1F). -/
def execLdAsmK5 (op : Word) : Exec Nat := do
  setAsm (op &&& 0x1F)
  done 1

/-! ### Register moves (0xF6) and short loads (0xF7) -/

/-- The register move of 0xF6: `*ARx± → *ARy±`. -/
def execMvddAr (op : Word) : Exec Nat := do
  let x : BitVec 3 := ((op >>> 4) &&& 7).setWidth 3
  let y : BitVec 3 := (op &&& 7).setWidth 3
  let s ← get
  wr (s.ar y) (dataRead s (s.ar x))
  modify fun s => s.setAr x (if bitSet op 7 then s.ar x - 1 else s.ar x + 1)
  modify fun s => s.setAr y (if bitSet op 3 then s.ar y - 1 else s.ar y + 1)
  done 1

/-- LD #k8 into a register (0xF7). -/
def execLdShort (op : Word) : Exec Nat := do
  let k := op &&& 0xFF
  match ((op >>> 4) &&& 0xF).toNat with
  | 0x0 => setAsm k
  | 0x1 => modify fun s => s.setAr 0 k
  | 0x2 => modify fun s => s.setAr 1 k
  | 0x3 => modify fun s => s.setAr 2 k
  | 0x4 => modify fun s => s.setAr 3 k
  | 0x5 => modify fun s => s.setAr 4 k
  | 0x6 => modify fun s => s.setAr 5 k
  | 0x7 => modify fun s => s.setAr 6 k
  | 0x8 => modify fun s =>
    { s with t := if bitSet s.st1 St1.sxm then (k.setWidth 8).signExtend 16 else k }
  | 0x9 => modify fun s => { s with st0 := (s.st0 &&& ~~~ St0.dpMask) ||| (k &&& St0.dpMask) }
  | 0xA => modify fun s => setArp s (k.setWidth 3)
  | 0xB => modify fun s => s.setAr 7 k
  | 0xC => modify fun s => { s with bk := k }
  | 0xD => modify fun s => { s with sp := k }
  | _ => pure ()
  done 1

end Qosmo.C54x
