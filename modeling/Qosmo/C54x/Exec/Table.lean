import Qosmo.C54x.Exec.Dual

/-!
# Qosmo.C54x.Exec.Table

The decoder of `c54x_exec_one`: the tests of its `switch (hi4)` in the order the
source makes them. The first test that passes decides, so an entry may be shadowed
by a wider one above it; tests of the source that can never be reached for that
reason have no entry here (the second copy of the 0xF4 arithmetic, RPTB on 0xEB,
the shifts of 0xE6, ...). An opcode no test accepts is skipped as one word, as the
source's `unimpl` exit does.
-/

namespace Qosmo.C54x

/-- A test whose code only falls through. -/
def plain (mask value : Word) (f : Word → Exec Nat) : Entry := ⟨mask, value, .plain f⟩

/-- A test whose code may change the flow of control. -/
def control (mask value : Word) (f : Word → Exec Flow) : Entry := ⟨mask, value, .control f⟩

/-- Accumulator arithmetic on 0xF4..0xF7. -/
def tableF4 : List Entry := [
  plain 0xFEFF 0xF483 execSat,
  plain 0xFCFF 0xF484 execNeg,
  plain 0xFCFF 0xF485 execAbs,
  plain 0xFEFF 0xF48C execMpyaT,
  plain 0xFEFF 0xF48D execSqurA,
  plain 0xFEFF 0xF48E execExp,
  plain 0xFEFF 0xF486 execMax,
  plain 0xFEFF 0xF487 execMin,
  plain 0xFEFF 0xF492 execRoltc,
  plain 0xFEFF 0xF49E execDouble,
  plain 0xFCFF 0xF48F execNorm,
  plain 0xFEFF 0xF490 execRor,
  plain 0xFEFF 0xF491 execRol,
  plain 0xFCFC 0xF488 execMacaT,
  plain 0xFCFF 0xF493 execCmpl,
  plain 0xFCFF 0xF49F execRnd,
  plain 0xFCFF 0xF480 execAddAsm,
  plain 0xFCFF 0xF481 execSubAsm,
  plain 0xFCFF 0xF482 execLdAsm,
  plain 0xFCF8 0xF4A8 execCmpr,
  plain 0xFCE0 0xF400 execAddShift,
  plain 0xFCE0 0xF420 execSubShift,
  plain 0xFCE0 0xF440 execLdShift,
  plain 0xFCE0 0xF460 execSfta,
  plain 0xFFF8 0xF4A0 execLdArp,
  plain 0xFEFF 0xF494 execSftc]

def tableF : List Entry := [
  plain 0xFFFF 0xF495 execNop,
  plain 0xFF00 0xFD00 (execXc 1),
  plain 0xFF00 0xFF00 (execXc 2),
  control 0xFEFE 0xF4E2 execBacc,
  control 0xFEFE 0xF4E6 execFbacc,
  control 0xFFFF 0xF49B execRetf,
  control 0xFFFF 0xF4EB execRete,
  control 0xFFFE 0xF4E4 execFret,
  ⟨0xFCFF, 0xF4E1, .halt⟩,
  plain 0xFFE0 0xF4E0 execNop] ++
  tableF4 ++ [
  -- 0xF4
  control 0xFFE0 0xF4C0 execTrap,
  plain 0xFFF0 0xF4B0 (execSt0Bit false),
  plain 0xFF00 0xF400 execNop,
  -- 0xF0..0xF3
  plain 0xFCF0 0xF000 execImm,
  plain 0xFCF0 0xF010 execImm,
  plain 0xFCF0 0xF020 execImm,
  plain 0xFCF0 0xF030 execImm,
  plain 0xFCF0 0xF040 execImm,
  plain 0xFCF0 0xF050 execImm,
  control 0xFFFF 0xF073 execB,
  control 0xFFFF 0xF074 execCall,
  control 0xFFFF 0xF072 (execRptb 2),
  control 0xFFFF 0xF070 execRptLk,
  control 0xFEFF 0xF071 (fun op => execRptz (dstB op) op),
  plain 0xFFF0 0xF070 execNop,
  plain 0xFEF0 0xF060 execImm16,
  plain 0xFE80 0xF080 execLogic,
  control 0xFFFF 0xF272 (execRptb 4),
  control 0xFFFF 0xF274 execCalld,
  control 0xFFFF 0xF273 execBd,
  plain 0xFEFE 0xF260 execImm16Ext,
  plain 0xFFFF 0xF262 execImm16Ext,
  plain 0xFEFF 0xF263 execImm16Ext,
  plain 0xFEFE 0xF264 execImm16Ext,
  plain 0xFEFF 0xF267 execImm16Ext,
  plain 0xFE80 0xF280 execLogicExt,
  -- 0xF8
  control 0xFFE0 0xF820 execBcTc,
  control 0xFF80 0xF880 execFb,
  control 0xFFE0 0xF860 execBanzAr,
  control 0xFFE0 0xF840 execBcAcc,
  control 0xFFE0 0xF800 execBanzSmem,
  -- 0xF6
  plain 0xFFF0 0xF6B0 (execSt1Bit false),
  control 0xFFFF 0xF6EB execReted,
  control 0xFFFF 0xF69B execReted,
  control 0xFEFE 0xF6E2 execBaccd,
  control 0xFFFE 0xF6E4 execFretd,
  control 0xFEFE 0xF6E6 execFbaccd,
  plain 0xFF80 0xF680 execMvddAr,
  -- 0xF5
  plain 0xFFF0 0xF5B0 (execSt0Bit true),
  control 0xFF00 0xF500 execRptK8,
  -- 0xF7
  plain 0xFFF0 0xF7B0 (execSt1Bit true),
  control 0xFFE0 0xF7C0 execIntr,
  control 0xFFFF 0xF7E0 execReset,
  plain 0xFFE0 0xF7E0 execNop,
  plain 0xFF00 0xF700 execLdShort,
  -- 0xF9..0xFE
  control 0xFF00 0xF900 execCc,
  control 0xFF00 0xFA00 execBcd,
  control 0xFF00 0xFB00 execCcd,
  control 0xFF00 0xFC00 execRc,
  control 0xFF00 0xFE00 execRcd]

def tableE : List Entry := [
  plain 0xFF00 0xE000 execFirs,
  plain 0xFF00 0xE300 execAbdst,
  plain 0xFF00 0xE100 execLms,
  plain 0xFC00 0xE000 execNop,
  plain 0xFE00 0xEA00 execLdDpK9,
  control 0xFF00 0xEC00 execRptK8,
  plain 0xFF00 0xE500 execMvdd,
  plain 0xFD00 0xE400 execStLdT,
  plain 0xFF00 0xE700 execMvmm,
  plain 0xFE00 0xE800 execLdK8,
  control 0xFF00 0xEF00 (fun op => execRptz (bitSet op 0) op),
  plain 0xFF00 0xEE00 execFrame,
  plain 0xFFE0 0xED00 execLdAsmK5,
  control 0xFF00 0xED00 execBcEd]

def table67 : List Entry := [
  plain 0xFF00 0x7E00 execReada,
  plain 0xFF00 0x7F00 execWrita,
  plain 0xFF00 0x6D00 execMar,
  plain 0xFF00 0x7600 execStLk,
  plain 0xFF00 0x7700 execStm,
  plain 0xFF00 0x7500 execPortw,
  plain 0xFF00 0x7400 execPortr,
  plain 0xFF00 0x7300 execMvmd,
  plain 0xFF00 0x7000 execMvkd,
  plain 0xFF00 0x7100 execMvdk,
  plain 0xFF00 0x7200 execMvdm,
  plain 0xFF00 0x7C00 execMvpd,
  plain 0xFF00 0x7D00 execMvdp,
  plain 0xFC00 0x7800 execMacp,
  plain 0xFF00 0x6000 execCmpm,
  plain 0xFF00 0x6100 execBitf,
  plain 0xFE00 0x6200 execMpyLk,
  plain 0xFC00 0x6400 execMacLk,
  plain 0xFF00 0x6800 execAndm,
  plain 0xFF00 0x6900 execOrm,
  plain 0xFF00 0x6A00 execXorm,
  plain 0xFF00 0x6B00 execAddm,
  control 0xFF00 0x6C00 execBanz,
  control 0xFF00 0x6E00 execBanzd,
  plain 0xFF00 0x6F00 exec6f]

/-- `case 0x2` and `case 0x3`, with `c54x_mac_bit_family` in front. -/
def table23 : List Entry := [
  plain 0xFC00 0x2800 execMac,
  plain 0xFE00 0x2E00 execMasr,
  plain 0xFF00 0x3500 execMaca,
  plain 0xFF00 0x3300 execMasa,
  plain 0xFF00 0x3700 execMacar,
  plain 0xFF00 0x3100 execMpya,
  plain 0xFF00 0x3000 execLdT,
  plain 0xFF00 0x3200 execLdAsmSmem,
  plain 0xFC00 0x3C00 execAdd16,
  plain 0xFF00 0x3400 execBitt,
  plain 0xFE00 0x3800 (execSqurAcc false),
  plain 0xFE00 0x3A00 (execSqurAcc true),
  plain 0xFF00 0x3600 execPoly,
  plain 0xF800 0x2000 execMpy,
  plain 0xFE00 0x2C00 execMas]

/-- `case 0x4`, with the three tests made before the `switch` in front. -/
def table4 : List Entry := [
  plain 0xFE00 0x4800 execLdm,
  plain 0xFE00 0x4E00 execDst,
  plain 0xFC00 0x4000 execSub16,
  plain 0xFE00 0x4400 execLd16,
  plain 0xFF00 0x4600 execLdDp,
  control 0xFF00 0x4700 execRptSmem,
  plain 0xFF00 0x4A00 execPshm,
  plain 0xFF00 0x4B00 execPshd,
  plain 0xFF00 0x4C00 execLtd,
  plain 0xFF00 0x4D00 execDelay]

/-- `case 0x8: case 0x9`, with the tests made before the `switch` in front. -/
def table89 : List Entry := [
  plain 0xFE00 0x9400 execLdX,
  plain 0xFF00 0x9600 execBit,
  plain 0xFC00 0x9800 execStX,
  plain 0xFF00 0x8500 (execStore lowWord true),
  plain 0xFF00 0x8D00 (execStReg Cpu.trn),
  plain 0xFC00 0x9000 execAddX,
  plain 0xFC00 0x9C00 execCondStore,
  plain 0xFF00 0x8A00 execPopm,
  plain 0xFE00 0x8800 execStlm,
  plain 0xFF00 0x8B00 execPopd,
  plain 0xFF00 0x8000 (execStore lowWord false),
  plain 0xFF00 0x8C00 (execStReg Cpu.t),
  plain 0xFE00 0x8E00 execCmps,
  plain 0xFE00 0x8600 (execStore hi16 true),
  plain 0xFF00 0x8100 (execStore lowWord false),
  plain 0xFF00 0x8200 (execStore hi16 false),
  plain 0xFF00 0x8300 (execStore hi16 false),
  plain 0xFF00 0x8400 (execStore lowWord true),
  plain 0xFF00 0x9700 execStLk97]

def tableAB : List Entry := [
  plain 0xFE00 0xA200 execSubXY,
  plain 0xFC00 0xA400 execMacXY,
  plain 0xF800 0xB000 execMacXY,
  plain 0xFC00 0xBC00 (execMasXY true),
  plain 0xFF00 0xBA00 execLdmBa,
  plain 0xFC00 0xB800 (execMasXY false),
  plain 0xF800 0xA800 execLdMac,
  plain 0xFE00 0xA000 execAddXY]

/-- `switch (hi4)`. -/
def family (hi4 : Nat) : List Entry :=
  match hi4 with
  | 0x0 => [plain 0xF000 0x0000 execAddSub]
  | 0x1 => [plain 0xF000 0x1000 execLoad]
  | 0x2 | 0x3 => table23
  | 0x4 => table4
  | 0x5 => [plain 0xF000 0x5000 execLong]
  | 0x6 | 0x7 => table67
  | 0x8 | 0x9 => table89
  | 0xA | 0xB => tableAB
  | 0xC | 0xD => [plain 0xE000 0xC000 execStPar]
  | 0xE => tableE
  | _ => tableF

def decode (op : Word) : Action :=
  match (family (op >>> 12).toNat).find? (·.hits op) with
  | some e => e.act
  | none => .plain execNop

/-- `c54x_exec_one`, past the level check and the fetch. -/
def execOp (op : Word) : Exec Outcome := do
  modify fun s => { s with lkUsed := false }
  (decode op).run op

end Qosmo.C54x
