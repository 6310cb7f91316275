import Qosmo.C54x.DualOperand
import Qosmo.C54x.Sum

/-!
# Qosmo.C54x.ShiftForms

ADD, SUB, LD, STH and STL with a shift, in one word and in two.

A one-word form takes its shift from nowhere (it is 0), from T or ASM, or, with an operand through
AR2..AR5, from the opcode. The two-word form (0x6F) has code of its own. `execOp_short` and
`execOp_longOp` say what each of them does with the address its operand resolves to, and `smemAt_mode`
that both resolve it alike: in compatibility mode only the long form of an operand through AR2..AR5
sets ARP.
-/

namespace Qosmo.C54x

open BitVec Prog

/-! ### The operations -/

/-- The operations of 0x6F. -/
inductive Shifted where
  | add
  | sub
  | ld
  | sth
  | stl
  deriving DecidableEq, Repr

namespace Shifted

/-- Bits 7..5 of the second word. -/
def code : Shifted → Nat
  | add => 0
  | sub => 1
  | ld => 2
  | sth => 3
  | stl => 4

def stores : Shifted → Bool
  | sth | stl => true
  | _ => false

/-- What the one-word forms do to the accumulator `isB` and the operand at `a`, with a shift by
`n`. -/
def short (o : Shifted) (isB : Bool) (n : Int) (a : Word) : Exec Unit := do
  let s ← get
  let acc := s.acc isB
  let v := shiftAcc (sxm s (dataRead s a)) n
  match o with
  | add => do
    carryAdd40 acc v
    setAcc isB (sext40 (acc + v))
  | sub => do
    carrySub40 acc v
    setAcc isB (sext40 (acc - v))
  | ld => setAcc isB (sext40 v)
  | sth => wr a (hi16 (shiftAcc acc n))
  | stl => wr a (lowWord (shiftAcc acc n))

/-- What 0x6F does. -/
def long (o : Shifted) (isB : Bool) (n : Int) (a : Word) : Exec Unit := do
  let s ← get
  let acc := s.acc isB
  let v := shiftAcc (sxm s (dataRead s a)) n
  match o with
  | add => setAcc isB (sext40 (acc + v))
  | sub => setAcc isB (sext40 (acc - v))
  | ld => setAcc isB (sext40 v)
  | sth => wr a (lowWord (shiftAcc ((hi16 acc).signExtend 64) n))
  | stl => wr a (lowWord (shiftAcc acc n))

end Shifted

/-! ### The long form -/

/-- The first word of a long form, with the addressing mode of its operand. -/
def longOp (mode : BitVec 8) : Word := withField 0x6E00 (dualField true mode)

/-- The second word of a long form. -/
structure Encodes (w : Word) (o : Shifted) (isB : Bool) (n : Int) : Prop where
  code : ((w >>> 5) &&& 7).toNat = o.code
  dst : dstB w = isB
  src : o = .add ∨ o = .sub → srcB w = isB
  shift : shift5 w = n

theorem decode_longOp (mode : BitVec 8) : decode (longOp mode) = .plain exec6f :=
  decode_of_first (withField_dualField (by decide) true mode) (by decide) rfl

abbrev smemAt (mode : BitVec 8) : Exec Word := resolveSmem (mode.setWidth 16)

theorem resolveSmem_withField {base : Word} (hbase : base &&& 0xFE00 = base) (isB : Bool)
    (mode : BitVec 8) : resolveSmem (withField base (dualField isB mode)) = smemAt mode :=
  resolveSmem_congr (setWidth_dualField hbase isB mode)

theorem execOp_longOp {mode : BitVec 8} {c : Ctx} {s : Cpu} {w : Word} {o : Shifted} {isB : Bool}
    {n : Int} (hw : (fetchOp2 c (smemAt mode c s.start).2).1 = w) (h : Encodes w o isB n) :
    (execOp (longOp mode) c s).2 =
      (o.long isB n (smemAt mode c s.start).1 c (smemAt mode c s.start).2).2 := by
  have hsmem : resolveSmem (longOp mode) = smemAt mode := resolveSmem_withField (by decide) true mode
  rw [execOp_plain (decode_longOp mode), exec6f, hsmem, run_bind]
  generalize (smemAt mode c s.start).2 = u at hw ⊢
  generalize (smemAt mode c s.start).1 = a
  have hfetch : fetchOp2 c u = (w, u) := by
    rw [← hw]
    rfl
  rw [run_bind, hfetch, run_get_bind]
  dsimp only
  rw [h.code, h.shift, h.dst]
  cases o with
  | add =>
    rw [h.src (.inl rfl)]
    rfl
  | sub =>
    rw [h.src (.inr rfl)]
    rfl
  | ld | sth | stl => rfl

/-! ### The one-word forms -/

/-- The opcodes without a shift, with a shift by T or ASM, and with a shift in the opcode; the
accumulator is in bit 8. -/
def Shifted.plainBase : Shifted → Word
  | add => 0x0000
  | sub => 0x0800
  | ld => 0x1000
  | sth => 0x8200
  | stl => 0x8000
def Shifted.regBase : Shifted → Word
  | add => 0x0400
  | sub => 0x0C00
  | ld => 0x1400
  | sth => 0x8600
  | stl => 0x8400
def Shifted.xmemBase : Shifted → Word
  | add => 0x9000
  | sub => 0x9200
  | ld => 0x9400
  | sth => 0x9A00
  | stl => 0x9800

/-- The shift of the second group. -/
def Shifted.regShift (o : Shifted) (s : Cpu) : Int := if o.stores then s.asmShift else tShift s

theorem shiftAcc_zero (v : Acc) : shiftAcc v 0 = v := by
  simp [shiftAcc]

section

variable {op : Word} (byReg : Bool) (c : Ctx) (s : Cpu)

theorem loadSmem_run : loadSmem op c s =
    (dataRead (resolveSmem op c s).2 (resolveSmem op c s).1, (resolveSmem op c s).2) := rfl

theorem execAddSub_snd (hkind : sumKind op = if byReg then 2 else 0) :
    (execAddSub op c s).2 = ((if bitSet op 11 then Shifted.sub else .add).short (dstB op)
      (if byReg then tShift (resolveSmem op c s).2 else 0) (resolveSmem op c s).1 c
      (resolveSmem op c s).2).2 := by
  rw [execAddSub, run_bind, loadSmem_run]
  generalize (resolveSmem op c s).2 = u
  generalize (resolveSmem op c s).1 = a
  dsimp only
  rw [run_get_bind, show ((op >>> 9) &&& 3).toNat = _ from hkind]
  -- neither kind takes a carry in
  cases byReg <;> cases bitSet op 11 <;> simp [Shifted.short, shiftAcc_zero, run_get_bind] <;> rfl

theorem execLoad_snd (hkind : ((op >>> 9) &&& 7).toNat = if byReg then 2 else 0) :
    (execLoad op c s).2 = (Shifted.ld.short (dstB op)
      (if byReg then tShift (resolveSmem op c s).2 else 0) (resolveSmem op c s).1 c
      (resolveSmem op c s).2).2 := by
  rw [execLoad, run_bind, loadSmem_run]
  generalize (resolveSmem op c s).2 = u
  generalize (resolveSmem op c s).1 = a
  dsimp only
  rw [run_get_bind, hkind]
  cases byReg <;> simp [Shifted.short, shiftAcc_zero, run_get_bind] <;> rfl

end

theorem execStore_snd (part : Acc → Word) (useAsm : Bool) (op : Word) (c : Ctx) (s : Cpu) :
    (execStore part useAsm op c s).2 = (wr (resolveSmem op c s).1
      (part (shiftAcc ((resolveSmem op c s).2.acc (dstB op))
        (if useAsm then (resolveSmem op c s).2.asmShift else 0))) c (resolveSmem op c s).2).2 := by
  rw [execStore, run_bind, run_get_bind]
  cases useAsm with
  | true => rfl
  | false =>
    simp only [Bool.false_eq_true, if_false, shiftAcc_zero]
    rfl

theorem shiftAcc_natCast (v : Acc) (k : Nat) : shiftAcc v k = v <<< k := by
  rw [shiftAcc, if_pos (Int.natCast_nonneg k), Int.toNat_natCast]

/-- The code of the forms with an Xmem operand. -/
def Shifted.execX : Shifted → Word → Exec Nat
  | add | sub => execAddX
  | ld => execLdX
  | sth | stl => execStX

theorem execX_snd {o : Shifted} {op : Word} (ho : bitSet op 9 = bitSet o.xmemBase 9) (c : Ctx)
    (s : Cpu) : (o.execX op c s).2 =
      (o.short (dstB op) ((op &&& 0xF).toNat : Nat) (s.ar (xAr op)) c (stepX op s)).2 := by
  have hrd : ∀ x u, rd x c u = (dataRead u x, u) := fun _ _ => rfl
  cases o with
  | add | sub =>
    rw [Shifted.execX, execAddX, run_bind, resolveXmem_eq, run_bind, hrd, run_get_bind, ho]
    simp only [Shifted.short, shiftAcc_natCast, run_get_bind]
    rfl
  | ld =>
    rw [Shifted.execX, execLdX, run_bind, resolveXmem_eq, run_bind, hrd, run_get_bind]
    simp only [Shifted.short, shiftAcc_natCast, run_get_bind]
    rfl
  | sth | stl =>
    rw [Shifted.execX, execStX, run_bind, resolveXmem_eq, run_get_bind, ho]
    simp only [Shifted.short, shiftAcc_natCast, run_get_bind]
    rfl

/-- A one-word form: with an operand in any addressing mode and no shift or one by T or ASM, or with
an operand through AR2..AR5 and a shift in the opcode. -/
inductive Form where
  | smem (byReg : Bool) (mode : BitVec 8)
  | xmem (mod ar : BitVec 2) (shft : BitVec 4)
  deriving DecidableEq, Repr

namespace Form

def xmemByte (mod ar : BitVec 2) (shft : BitVec 4) : BitVec 8 := mod ++ ar ++ shft

def opcode (o : Shifted) (isB : Bool) : Form → Word
  | smem byReg mode => withField (if byReg then o.regBase else o.plainBase) (dualField isB mode)
  | xmem mod ar shft => withField o.xmemBase (dualField isB (xmemByte mod ar shft))

def shift (o : Shifted) (s : Cpu) : Form → Int
  | smem byReg _ => if byReg then o.regShift s else 0
  | xmem _ _ shft => shft.toNat

/-- The address of the operand, and the core behind its post-modification. -/
def operand (c : Ctx) (s : Cpu) : Form → Word × Cpu
  | smem _ mode => smemAt mode c s.start
  | xmem mod ar shft => resolveXmem ((xmemByte mod ar shft).setWidth 16) c s.start

end Form

section

variable (mode : BitVec 8) (c : Ctx) (s : Cpu)

theorem loaded_smemAt : Loaded s (smemAt mode c s.start).2 := by
  obtain ⟨ar, st0, lk, hflag, heq⟩ := loadSmem_eq (mode.setWidth 16) c s.start
  have hstate : (smemAt mode c s.start).2 = { s.start with ar := ar, st0 := st0, lkUsed := lk } := heq
  rw [hstate]
  exact ⟨fun _ => rfl, rfl, rfl, hflag⟩

/-- The shifts are taken behind the post-modification, which does not change them. -/
theorem tShift_smemAt : tShift (smemAt mode c s.start).2 = tShift s := by
  rw [tShift, tShift, (loaded_smemAt mode c s).t]

theorem asmShift_smemAt : (smemAt mode c s.start).2.asmShift = s.asmShift := by
  rw [Cpu.asmShift, Cpu.asmShift, (loaded_smemAt mode c s).st1]

end

section Smem

variable (o : Shifted) (isB byReg : Bool) (mode : BitVec 8)

theorem decode_short_smem : decode ((Form.smem byReg mode).opcode o isB) =
    .plain (match o with
      | .add | .sub => execAddSub
      | .ld => execLoad
      | .sth => execStore hi16 byReg
      | .stl => execStore lowWord byReg) := by
  have hbits : ∀ base : Word, base &&& 0xFE00 = base →
      withField base (dualField isB mode) &&& 0xF000 = base &&& 0xF000 :=
    fun base h => and_of_and (withField_and h _) (by decide)
  have hop : ∀ base : Word, base &&& 0xFE00 = base →
      withField base (dualField isB mode) &&& 0xFF00 = base ||| if isB then 0x0100 else 0 :=
    fun base h => withField_dualField h isB mode
  cases o with
  | add | sub | ld => cases byReg <;> exact decode_of_first (hbits _ (by decide)) (by decide) rfl
  | sth =>
    cases byReg with
    | true => exact decode_of_first (withField_and (by decide) _) (by decide) rfl
    | false => cases isB <;> exact decode_of_first (hop 0x8200 (by decide)) (by decide) rfl
  | stl => cases byReg <;> cases isB <;> exact decode_of_first (hop _ (by decide)) (by decide) rfl

theorem execOp_short_smem (c : Ctx) (s : Cpu) :
    (execOp ((Form.smem byReg mode).opcode o isB) c s).2 =
      (o.short isB ((Form.smem byReg mode).shift o s) (smemAt mode c s.start).1 c
        (smemAt mode c s.start).2).2 := by
  have hbits : (if byReg then o.regBase else o.plainBase) &&& 0xFE00 =
      if byReg then o.regBase else o.plainBase := by
    cases o <;> cases byReg <;> decide
  have hdst := (selected_withField hbits isB mode).2
  have hsmem := resolveSmem_withField hbits isB mode
  have hhigh := ushiftRight_withField (if byReg then o.regBase else o.plainBase) (dualField isB mode)
  rw [execOp_plain (decode_short_smem o isB byReg mode), Form.opcode]
  cases o with
  | add | sub =>
    rw [execAddSub_snd byReg, hdst, bitSet_withField _ _ (by decide), hsmem, tShift_smemAt]
    · cases byReg <;> rfl
    · rw [sumKind, hhigh]
      cases byReg <;> rfl
  | ld =>
    rw [execLoad_snd byReg, hdst, hsmem, tShift_smemAt]
    · rfl
    · rw [hhigh]
      cases byReg <;> rfl
  | sth | stl =>
    rw [execStore_snd, hdst, hsmem, asmShift_smemAt]
    rfl

end Smem

section Xmem

variable (o : Shifted) (isB : Bool) (mod ar : BitVec 2) (shft : BitVec 4)

theorem xmem_fields : xAr ((Form.xmemByte mod ar shft).setWidth 16) = ar.setWidth 3 + 2 ∧
    xMod ((Form.xmemByte mod ar shft).setWidth 16) = mod.toNat ∧
    (((Form.xmemByte mod ar shft).setWidth 16 : Word) &&& 0xF).toNat = shft.toNat := by
  revert mod ar shft
  decide

theorem decode_short_xmem : decode ((Form.xmem mod ar shft).opcode o isB) = .plain o.execX := by
  have hop : ∀ base : Word, base &&& 0xFE00 = base →
      withField base (dualField isB (Form.xmemByte mod ar shft)) &&& 0xFC00 = base &&& 0xFC00 :=
    fun base h => and_of_and (withField_and h _) (by decide)
  cases o with
  | add => exact decode_of_first (hop 0x9000 (by decide)) (by decide) rfl
  | sub => exact decode_of_first (hop 0x9200 (by decide)) (by decide) rfl
  | ld => exact decode_of_first (withField_and (by decide) _) (by decide) rfl
  | sth => exact decode_of_first (hop 0x9A00 (by decide)) (by decide) rfl
  | stl => exact decode_of_first (hop 0x9800 (by decide)) (by decide) rfl

theorem execOp_short_xmem (c : Ctx) (s : Cpu) :
    (execOp ((Form.xmem mod ar shft).opcode o isB) c s).2 =
      (o.short isB shft.toNat (s.ar (ar.setWidth 3 + 2)) c
        { s.start with ar := stepAr (ar.setWidth 3 + 2) mod.toNat s }).2 := by
  have hbase : o.xmemBase &&& 0xFE00 = o.xmemBase := by cases o <;> decide
  obtain ⟨hxAr, hxMod, hlow⟩ := xmem_fields mod ar shft
  have hbyte := setWidth_dualField hbase isB (Form.xmemByte mod ar shft)
  have hfields := sameFields hbyte
  have hshft : ((Form.xmem mod ar shft).opcode o isB &&& 0xF).toNat = shft.toNat := by
    rw [← hlow]
    exact congrArg BitVec.toNat (shifted_and_congr (k := 0) hbyte (by decide))
  have hdst : dstB ((Form.xmem mod ar shft).opcode o isB) = isB := (selected_withField hbase isB _).2
  have hsub : bitSet ((Form.xmem mod ar shft).opcode o isB) 9 = bitSet o.xmemBase 9 :=
    bitSet_withField _ _ (by decide)
  have hx : xAr ((Form.xmem mod ar shft).opcode o isB) = ar.setWidth 3 + 2 :=
    hfields.xAr.trans hxAr
  have hm : xMod ((Form.xmem mod ar shft).opcode o isB) = mod.toNat := hfields.xMod.trans hxMod
  have hstep : ∀ t : Cpu, stepX ((Form.xmem mod ar shft).opcode o isB) t =
      { t with ar := stepAr (ar.setWidth 3 + 2) mod.toNat t } := by
    intro t
    rw [stepX, hx, hm]
  rw [execOp_plain (decode_short_xmem o isB mod ar shft)]
  rw [execX_snd hsub, hdst, hshft, hx, hstep]
  rfl

end Xmem

theorem operand_xmem (mod ar : BitVec 2) (shft : BitVec 4) (c : Ctx) (s : Cpu) :
    (Form.xmem mod ar shft).operand c s = (s.ar (ar.setWidth 3 + 2),
      { s.start with ar := stepAr (ar.setWidth 3 + 2) mod.toNat s }) := by
  obtain ⟨hxAr, hxMod, -⟩ := xmem_fields mod ar shft
  rw [Form.operand, resolveXmem_eq, stepX, hxAr, hxMod]
  rfl

theorem execOp_short (o : Shifted) (isB : Bool) (form : Form) (c : Ctx) (s : Cpu) :
    (execOp (form.opcode o isB) c s).2 =
      (o.short isB (form.shift o s) (form.operand c s).1 c (form.operand c s).2).2 := by
  cases form with
  | smem byReg mode => exact execOp_short_smem o isB byReg mode c s
  | xmem mod ar shft =>
    rw [execOp_short_xmem, operand_xmem]
    rfl

/-! ### One operand in both forms -/

namespace Form

/-- The addressing mode of the operand in the long form; `*ARx+0%` is mode 0xB there. -/
def mode : Form → BitVec 8
  | smem _ mode => mode
  | xmem mod ar _ =>
    BitVec.ofBool true ++ (if mod = 3 then 0xB else mod.setWidth 4) ++ (ar.setWidth 3 + 2 : BitVec 3)

/-- The long form moves ARP, the one-word form does not. -/
def movesArp (s : Cpu) : Form → Bool
  | smem _ _ => false
  | xmem _ ar _ => bitSet s.st1 St1.cmpt && s.arp != ar.setWidth 3 + 2

end Form

theorem mode_fields (mod ar : BitVec 2) (shft : BitVec 4) :
    bitSet ((Form.xmem mod ar shft).mode.setWidth 16) 7 ∧
      narOf ((Form.xmem mod ar shft).mode.setWidth 16) = ar.setWidth 3 + 2 ∧
      modOf ((Form.xmem mod ar shft).mode.setWidth 16) = if mod = 3 then 0xB else mod.toNat := by
  simp only [Form.mode]
  revert mod ar
  decide

theorem indirect_xmem (mod : BitVec 2) (n : BitVec 3) (s : Cpu) (lk : Word) :
    indirect (if mod = 3 then 0xB else mod.toNat) 1 (s.ar n) (s.ar 0) s.bk lk =
      (stepped n mod.toNat s, s.ar n) := by
  have hmod : mod = 0 ∨ mod = 1 ∨ mod = 2 ∨ mod = 3 := by
    revert mod
    decide
  rcases hmod with rfl | rfl | rfl | rfl <;> rfl

theorem setArp_arp (s : Cpu) (n : BitVec 3) : (setArp s n).st0 = s.st0 ↔ s.arp = n := by
  constructor
  · intro h
    have harp := arp_setArp s n
    rwa [Cpu.arp, h] at harp
  · rintro rfl
    apply eq_of_getLsbD_eq
    intro i hi
    by_cases hlow : i < 13
    · exact bitSet_setArp s s.arp hlow
    · have hmask : ∀ j < 16, ¬ j < 13 → (~~~ St0.arpMask).getLsbD j = false := by decide
      have hsub : i - 13 < 3 := by omega
      have hback : 13 + (i - 13) = i := by omega
      simp only [setArp, getLsbD_or, getLsbD_and, hmask i hi hlow, Bool.and_false,
        Bool.false_or, getLsbD_shiftLeft, St0.arpShift, Cpu.arp, getLsbD_setWidth,
        getLsbD_ushiftRight, hi, hlow, hsub, hback]
      simp [show i - 13 < 16 by omega]

theorem smemAt_xmem (mod ar : BitVec 2) (shft : BitVec 4) (c : Ctx) (s : Cpu) :
    smemAt (Form.xmem mod ar shft).mode c s.start =
      (s.ar (ar.setWidth 3 + 2),
        if bitSet s.st1 St1.cmpt then
          setArp { s.start with ar := stepAr (ar.setWidth 3 + 2) mod.toNat s } (ar.setWidth 3 + 2)
        else { s.start with ar := stepAr (ar.setWidth 3 + 2) mod.toNat s }) := by
  obtain ⟨hind, hnar, hmod⟩ := mode_fields mod ar shft
  generalize hop : ((Form.xmem mod ar shft).mode.setWidth 16 : Word) = op at hind hnar hmod
  have hne : ∀ ar : BitVec 2, ((ar.setWidth 3 + 2 : BitVec 3) == 0) = false := by decide
  have hlt : ∀ mod : BitVec 2, decide (0xC ≤ if mod = 3 then 0xB else mod.toNat) = false := by
    decide
  have hlk : decide (0xC ≤ modOf op) = false := by rw [hmod, hlt]
  have hacc : access c s.start op 1 (ar.setWidth 3 + 2) =
      (stepped (ar.setWidth 3 + 2) mod.toNat s, s.ar (ar.setWidth 3 + 2)) := by
    rw [access, hmod]
    exact indirect_xmem mod _ s.start _
  have hrun : indirectAccess op (ar.setWidth 3 + 2) 1 c s.start = (s.ar (ar.setWidth 3 + 2),
      { s.start with ar := stepAr (ar.setWidth 3 + 2) mod.toNat s }) := by
    change ((access c s.start op 1 (ar.setWidth 3 + 2)).2,
      { s.start.setAr (ar.setWidth 3 + 2) (access c s.start op 1 (ar.setWidth 3 + 2)).1 with
        lkUsed := false || decide (0xC ≤ modOf op) }) = _
    rw [hacc, hlk]
    rfl
  have hst1 : s.start.st1 = s.st1 := rfl
  have hnar' : op.setWidth 3 = ar.setWidth 3 + 2 := hnar
  rw [smemAt, hop, resolveSmem, run_get_bind, if_pos hind]
  simp only [hnar', hne, bne, Bool.and_false, Bool.false_eq_true, if_false, Bool.not_false,
    Bool.and_true, run_bind, hrun, hst1]
  cases bitSet s.st1 St1.cmpt <;> rfl

theorem loaded_operand (form : Form) (c : Ctx) (s : Cpu) : Loaded s (form.operand c s).2 := by
  cases form with
  | smem byReg mode => exact loaded_smemAt mode c s
  | xmem mod ar shft =>
    rw [operand_xmem]
    exact ⟨fun _ => rfl, rfl, rfl, fun _ _ => rfl⟩

/-- Both forms resolve the operand alike, but for ARP. -/
theorem smemAt_mode (form : Form) (c : Ctx) (s : Cpu) : ∃ st0,
    (∀ k < 13, bitSet st0 k = bitSet (form.operand c s).2.st0 k) ∧
      (st0 = (form.operand c s).2.st0 ↔ form.movesArp s = false) ∧
      smemAt form.mode c s.start =
        ((form.operand c s).1, { (form.operand c s).2 with st0 := st0 }) := by
  cases form with
  | smem byReg mode => exact ⟨_, fun _ _ => rfl, ⟨fun _ => rfl, fun _ => rfl⟩, rfl⟩
  | xmem mod ar shft =>
    rw [smemAt_xmem, operand_xmem, Form.movesArp]
    cases bitSet s.st1 St1.cmpt with
    | false => exact ⟨_, fun _ _ => rfl, ⟨fun _ => rfl, fun _ => rfl⟩, rfl⟩
    | true =>
      refine ⟨_, fun k hk => bitSet_setArp _ (ar.setWidth 3 + 2) hk, ?_, rfl⟩
      rw [setArp_arp, Bool.true_and, bne_eq_false_iff_eq]
      rfl

end Qosmo.C54x
