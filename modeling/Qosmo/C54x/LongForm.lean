import Qosmo.C54x.ShiftForms

/-!
# Qosmo.C54x.LongForm

The two-word forms of ADD, SUB, LD, STH and STL with a shift (0x6F) against the one-word forms.

The code of the long forms differs from that of the one-word forms in two places: ADD and SUB leave C,
and STH shifts the high word instead of the accumulator. The long form of an operand through AR2..AR5
also sets ARP in compatibility mode, which the instruction itself may read. `long_form_iff` says when
none of this is seen in the accumulators, the memories and C.
-/

namespace Qosmo.C54x

open BitVec Prog

/-! ### Accumulators, memories and carry -/

structure Agree (u v : Cpu) : Prop where
  acc : ∀ isB, u.acc isB = v.acc isB
  data : u.data = v.data
  apiRam : u.apiRam = v.apiRam
  prog : u.prog = v.prog
  carry : bitSet u.st0 St0.c = bitSet v.st0 St0.c

theorem Agree.refl (u : Cpu) : Agree u u := ⟨fun _ => rfl, rfl, rfl, rfl, rfl⟩

theorem Agree.dataRead_cell {u v : Cpu} (h : Agree u v) {a : Word} (ha : isCell a) :
    dataRead u a = dataRead v a := by
  rw [C54x.dataRead_cell ha, C54x.dataRead_cell ha, h.data, h.apiRam]

/-! ### With another ST0 -/

section St0

variable (c : Ctx) {s : Cpu} {st0 : Word}

theorem dataRead_st0_iff (s : Cpu) (st0 a : Word) :
    dataRead { s with st0 := st0 } a = dataRead s a ↔ (a = Mmr.st0.addr → st0 = s.st0) := by
  refine (dataRead_eq_iff (s := s) (t := { s with st0 := st0 }) ⟨rfl, rfl, rfl, rfl⟩ a).trans
    ⟨fun h ha => h .st0 ha, fun h r hr => ?_⟩
  cases r with
  | st0 => exact h hr
  | _ => rfl

section

variable (h : bitSet st0 St0.c = bitSet s.st0 St0.c)

include h

theorem agree_st0 : Agree { s with st0 := st0 } s :=
  ⟨fun _ => rfl, rfl, rfl, rfl, h⟩

theorem agree_writeMmr (v : Word) (r : Mmr) :
    Agree (writeMmr c { s with st0 := st0 } v r) (writeMmr c s v r) := by
  have himr : gardeImr c { s with st0 := st0 } = gardeImr c s := rfl
  have hsp : gardeSp c { s with st0 := st0 } v = gardeSp c s v := rfl
  cases r with
  | st0 => exact Agree.refl _
  | imr | sp =>
    simp only [writeMmr, himr, hsp]
    split
    · exact agree_st0 h
    · exact ⟨fun _ => rfl, rfl, rfl, rfl, h⟩
  | _ => exact ⟨fun _ => rfl, rfl, rfl, rfl, h⟩

theorem agree_dataWrite (a v : Word) :
    Agree (dataWrite c { s with st0 := st0 } a v) (dataWrite c s a v) := by
  by_cases hlt : a < 0x20
  · rw [dataWrite_of_lt hlt, dataWrite_of_lt hlt]
    cases mmrAt a with
    | none => exact agree_st0 h
    | some r => exact agree_writeMmr c h v r
  · have hge := BitVec.not_lt.mp hlt
    obtain ⟨data, ram, psc, served, heq⟩ := dataWrite_of_ge (c := c) (s := s) (v := v) hge
    rw [dataWrite_of_same (s := s) (t := { s with st0 := st0 }) hge ⟨rfl, rfl, rfl, rfl⟩, heq]
    exact ⟨fun _ => rfl, rfl, rfl, rfl, h⟩

end

theorem eq_of_agree_dataWrite {a v w : Word} (ha : isCell a)
    (h : Agree (dataWrite c { s with st0 := st0 } a v) (dataWrite c s a w)) : v = w := by
  have hread := h.dataRead_cell ha
  rwa [dataRead_dataWrite_same ha, dataRead_dataWrite_same ha] at hread

end St0

/-! ### STH -/

/-- Shifting the high word gives the high word of the shifted accumulator: no ones come up from below
it, or none go out of it that the guard bits have otherwise. -/
structure KeepsHigh (acc : Acc) (n : Int) : Prop where
  below : ∀ j < n.toNat, acc.getLsbD (15 - j) = false
  above : ∀ j < (-n).toNat, acc.getLsbD (32 + j) = acc.getLsbD 31

theorem getLsbD_hi16 (v : Acc) {i : Nat} (hi : i < 16) : (hi16 v).getLsbD i = v.getLsbD
    (16 + i) := by
  rw [hi16, getLsbD_setWidth, getLsbD_ushiftRight, decide_eq_true hi, Bool.true_and]

theorem getLsbD_longHigh (acc : Acc) {i : Nat} (hi : i < 64) :
    ((hi16 acc).signExtend 64).getLsbD i = acc.getLsbD (if i < 16 then 16 + i else 31) := by
  rw [getLsbD_signExtend, decide_eq_true hi, Bool.true_and]
  split
  · rw [getLsbD_hi16 acc (by omega)]
  · rw [msb_eq_getLsbD_last, getLsbD_hi16 acc (by omega)]

theorem longHigh_left (acc : Acc) {k : Nat} (hk : k ≤ 15) :
    lowWord (((hi16 acc).signExtend 64) <<< k) = hi16 (acc <<< k) ↔
      ∀ j < k, acc.getLsbD (15 - j) = false := by
  have hlong : ∀ i < 16, (lowWord (((hi16 acc).signExtend 64) <<< k)).getLsbD i =
      (!decide (i < k) && acc.getLsbD (16 + (i - k))) := by
    intro i hi
    rw [lowWord, getLsbD_setWidth, getLsbD_shiftLeft, getLsbD_longHigh acc (by omega),
      if_pos (by omega)]
    simp [hi, show i < 64 by omega]
  have hshort : ∀ i < 16, (hi16 (acc <<< k)).getLsbD i = acc.getLsbD (16 + i - k) := by
    intro i hi
    rw [getLsbD_hi16 _ hi, getLsbD_shiftLeft]
    simp [show 16 + i < 64 by omega, show ¬ 16 + i < k by omega]
  constructor
  · intro h j hj
    have hbit := congrArg (·.getLsbD (k - 1 - j)) h
    simp only [hlong (k - 1 - j) (by omega), hshort (k - 1 - j) (by omega)] at hbit
    rw [decide_eq_true (by omega), show 16 + (k - 1 - j) - k = 15 - j by omega] at hbit
    exact hbit.symm
  · intro h
    apply eq_of_getLsbD_eq
    intro i hi
    rw [hlong i hi, hshort i hi]
    by_cases hik : i < k
    · have hzero := h (k - 1 - i) (by omega)
      rw [show 15 - (k - 1 - i) = 16 + i - k by omega] at hzero
      rw [hzero, decide_eq_true hik]
      rfl
    · rw [decide_eq_false hik, show 16 + (i - k) = 16 + i - k by omega]
      rfl

theorem longHigh_right (acc : Acc) {k : Nat} (hk : k ≤ 16) :
    lowWord (((hi16 acc).signExtend 64).sshiftRight k) = hi16 (acc.sshiftRight k) ↔
      ∀ j < k, acc.getLsbD (32 + j) = acc.getLsbD 31 := by
  have hlong : ∀ i < 16, (lowWord (((hi16 acc).signExtend 64).sshiftRight k)).getLsbD i =
      acc.getLsbD (if k + i < 16 then 16 + (k + i) else 31) := by
    intro i hi
    rw [lowWord, getLsbD_setWidth, decide_eq_true hi, Bool.true_and, getLsbD_sshiftRight,
      if_pos (by omega), getLsbD_longHigh acc (by omega)]
    simp [show ¬ 64 ≤ i by omega]
  have hshort : ∀ i < 16, (hi16 (acc.sshiftRight k)).getLsbD i = acc.getLsbD (16 + (k + i)) := by
    intro i hi
    rw [getLsbD_hi16 _ hi, getLsbD_sshiftRight, if_pos (by omega),
      show k + (16 + i) = 16 + (k + i) by omega]
    simp [show ¬ 64 ≤ 16 + i by omega]
  constructor
  · intro h j hj
    have hbit := congrArg (·.getLsbD (16 + j - k)) h
    simp only [hlong (16 + j - k) (by omega), hshort (16 + j - k) (by omega)] at hbit
    rw [if_neg (by omega), show 16 + (k + (16 + j - k)) = 32 + j by omega] at hbit
    exact hbit.symm
  · intro h
    apply eq_of_getLsbD_eq
    intro i hi
    rw [hlong i hi, hshort i hi]
    split
    · rfl
    · have hguard := h (k + i - 16) (by omega)
      rw [show 32 + (k + i - 16) = 16 + (k + i) by omega] at hguard
      exact hguard.symm

theorem longHigh_iff (acc : Acc) {n : Int} (hlow : -16 ≤ n) (hhigh : n ≤ 15) :
    lowWord (shiftAcc ((hi16 acc).signExtend 64) n) = hi16 (shiftAcc acc n) ↔ KeepsHigh acc n := by
  by_cases hn : 0 ≤ n
  · rw [shiftAcc, shiftAcc, if_pos hn, if_pos hn, longHigh_left acc (by omega)]
    exact ⟨fun h => ⟨h, fun j hj => by omega⟩, fun h => h.below⟩
  · rw [shiftAcc, shiftAcc, if_neg hn, if_neg hn, longHigh_right acc (by omega)]
    exact ⟨fun h => ⟨fun j hj => by omega, h⟩, fun h => h.above⟩

/-! ### ADD, SUB and LD -/

namespace Shifted

/-- What is left in the accumulator, before it is cut to 40 bits. -/
def result (o : Shifted) (acc v : Acc) : Acc :=
  match o with
  | add => acc + v
  | sub => acc - v
  | _ => v

/-- C as the one-word forms leave it. -/
def carry (o : Shifted) (acc v : Acc) (before : Bool) : Bool :=
  match o with
  | add => carryOf false acc v false
  | sub => carryOf true acc v false
  | _ => before

end Shifted

theorem carryOf_false (acc v : Acc) : carryOf false acc v false =
      bitSet ((acc &&& mask40) + (v &&& mask40)) 40 ∧
    carryOf true acc v false = decide (v &&& mask40 ≤ acc &&& mask40) := by
  have hzero : v + carryAcc false = v := add_zero v
  rw [carryOf, carryOf, hzero]
  exact ⟨rfl, rfl⟩

section Sums

variable {o : Shifted} (isB : Bool) (n : Int) (a : Word) (c : Ctx) (u : Cpu)

theorem long_eq (ho : o.stores = false) : (o.long isB n a c u).2 =
    (setAcc isB (sext40 (o.result (u.acc isB) (shiftAcc (sxm u (dataRead u a)) n))) c u).2 := by
  cases o with
  | sth | stl => cases ho
  | _ => rfl

theorem short_eq (ho : o.stores = false) : ∃ st0,
    bitSet st0 St0.c =
        o.carry (u.acc isB) (shiftAcc (sxm u (dataRead u a)) n) (bitSet u.st0 St0.c) ∧
      (o.short isB n a c u).2 =
        (setAcc isB (sext40 (o.result (u.acc isB) (shiftAcc (sxm u (dataRead u a)) n))) c
          { u with st0 := st0 }).2 := by
  obtain ⟨hadd, hsub⟩ := carryOf_false (u.acc isB) (shiftAcc (sxm u (dataRead u a)) n)
  cases o with
  | add =>
    refine ⟨putBit u.st0 St0.c (carryOf false _ _ false), bitSet_putBit_self _ _ (by decide), ?_⟩
    rw [hadd]
    rfl
  | sub =>
    refine ⟨putBit u.st0 St0.c (carryOf true _ _ false), bitSet_putBit_self _ _ (by decide), ?_⟩
    rw [hsub]
    rfl
  | ld => exact ⟨u.st0, rfl, rfl⟩
  | sth | stl => cases ho

theorem agree_setAcc_iff (v w : Acc) (st0 st0' : Word) :
    Agree (setAcc isB v c { u with st0 := st0 }).2 (setAcc isB w c { u with st0 := st0' }).2 ↔
      v = w ∧ bitSet st0 St0.c = bitSet st0' St0.c := by
  have hst0 : ∀ (x : Acc) (y : Word), (setAcc isB x c { u with st0 := y }).2.st0 = y := by
    intro x y
    cases isB <;> rfl
  constructor
  · intro h
    have hacc := h.acc isB
    have hcarry := h.carry
    rw [acc_setAcc, acc_setAcc] at hacc
    rw [hst0, hst0] at hcarry
    exact ⟨hacc, hcarry⟩
  · rintro ⟨rfl, hcarry⟩
    cases isB <;> exact ⟨fun _ => rfl, rfl, rfl, rfl, hcarry⟩

end Sums

/-- The low 40 bits of the operand can be told from the accumulator. -/
theorem result_inj {o : Shifted} {acc v w : Acc}
    (h : sext40 (o.result acc v) = sext40 (o.result acc w)) : v.setWidth 40 = w.setWidth 40 := by
  have hlow := congrArg (BitVec.setWidth 40) h
  rw [setWidth_sext40, setWidth_sext40] at hlow
  cases o with
  | add =>
    rw [Shifted.result, Shifted.result, setWidth_add _ _ (by decide),
      setWidth_add _ _ (by decide)] at hlow
    exact (add_right_inj _).mp hlow
  | sub =>
    rw [Shifted.result, Shifted.result, sub_eq_add_neg, sub_eq_add_neg,
      setWidth_add _ _ (by decide), setWidth_add _ _ (by decide),
      setWidth_neg_of_le (by decide), setWidth_neg_of_le (by decide)] at hlow
    exact BitVec.neg_inj.mp ((add_right_inj _).mp hlow)
  | ld | sth | stl => exact hlow

theorem getLsbD_sxm (s : Cpu) (x : Word) {i : Nat} (hi : i < 16) :
    (sxm s x).getLsbD i = x.getLsbD i := by
  rw [sxm]
  split
  · rw [getLsbD_signExtend, if_pos hi]
    simp [show i < 64 by omega]
  · simp [show i < 64 by omega]

theorem shiftAcc_sxm_inj {s : Cpu} {x y : Word} {k : Nat} (hk : k ≤ 15)
    (h : (shiftAcc (sxm s x) k).setWidth 40 = (shiftAcc (sxm s y) k).setWidth 40) : x = y := by
  have hbit : ∀ w : Word, ∀ i < 16, ((shiftAcc (sxm s w) k).setWidth 40).getLsbD (k + i) =
      w.getLsbD i := by
    intro w i hi
    rw [shiftAcc_natCast, getLsbD_setWidth, getLsbD_shiftLeft, Nat.add_sub_cancel_left,
      getLsbD_sxm s w hi]
    simp [show k + i < 64 by omega, show k + i < 40 by omega]
  apply eq_of_getLsbD_eq
  intro i hi
  rw [← hbit x i hi, ← hbit y i hi, h]

/-! ### The two forms -/

def Form.addend (form : Form) (o : Shifted) (c : Ctx) (s : Cpu) : Acc :=
  shiftAcc (sxm s (dataRead (form.operand c s).2 (form.operand c s).1)) (form.shift o s)

/-- Where the code of the two forms comes to the same. -/
structure Alike (o : Shifted) (isB : Bool) (form : Form) (c : Ctx) (s : Cpu) : Prop where
  /-- The operand is not an ST0 in which the long form has moved ARP. -/
  operand : o.stores = false → form.movesArp s = true → (form.operand c s).1 ≠ Mmr.st0.addr
  /-- C is already what the one-word form leaves. -/
  carry : o.stores = false →
    o.carry (s.acc isB) (form.addend o c s) (bitSet s.st0 St0.c) = bitSet s.st0 St0.c
  high : o = .sth → KeepsHigh (s.acc isB) (form.shift o s)

theorem agree_sum_iff {o : Shifted} (ho : o.stores = false) (isB : Bool) (n : Int) (a : Word)
    (c : Ctx) {u : Cpu} {st0 : Word} (hflag : bitSet st0 St0.c = bitSet u.st0 St0.c) :
    Agree (o.long isB n a c { u with st0 := st0 }).2 (o.short isB n a c u).2 ↔
      sext40 (o.result (u.acc isB) (shiftAcc (sxm u (dataRead { u with st0 := st0 } a)) n)) =
          sext40 (o.result (u.acc isB) (shiftAcc (sxm u (dataRead u a)) n)) ∧
        o.carry (u.acc isB) (shiftAcc (sxm u (dataRead u a)) n) (bitSet u.st0 St0.c) =
          bitSet u.st0 St0.c := by
  obtain ⟨st0', hcarry, hshort⟩ := short_eq isB n a c u ho
  rw [long_eq isB n a c _ ho, hshort, agree_setAcc_iff, hflag, hcarry, eq_comm (b := o.carry _ _ _)]
  rfl

theorem agree_sth (isB : Bool) {n : Int} (a : Word) (c : Ctx) {u : Cpu} {st0 : Word}
    (hn : -16 ≤ n ∧ n ≤ 15) (hflag : bitSet st0 St0.c = bitSet u.st0 St0.c) :
    (KeepsHigh (u.acc isB) n → Agree (Shifted.sth.long isB n a c { u with st0 := st0 }).2
        (Shifted.sth.short isB n a c u).2) ∧
      (isCell a = true → Agree (Shifted.sth.long isB n a c { u with st0 := st0 }).2
        (Shifted.sth.short isB n a c u).2 → KeepsHigh (u.acc isB) n) := by
  have hhigh := longHigh_iff (u.acc isB) hn.1 hn.2
  refine ⟨fun h => ?_, fun ha h => hhigh.mp (eq_of_agree_dataWrite c ha h)⟩
  change Agree (dataWrite c { u with st0 := st0 } a
    (lowWord (shiftAcc ((hi16 (u.acc isB)).signExtend 64) n))) _
  rw [hhigh.mpr h]
  exact agree_dataWrite c hflag a _

theorem shift_of_movesArp {form : Form} {s : Cpu} (h : form.movesArp s) (o : Shifted) :
    ∃ k : Nat, k ≤ 15 ∧ form.shift o s = k := by
  cases form with
  | smem byReg mode => cases h
  | xmem mod ar shft => exact ⟨shft.toNat, Nat.le_of_lt_succ shft.isLt, rfl⟩

theorem Encodes.bounds {w : Word} {o : Shifted} {isB : Bool} {n : Int} (h : Encodes w o isB n) :
    -16 ≤ n ∧ n ≤ 15 := by
  have hlow := le_toInt (w.setWidth 5)
  have hhigh := toInt_lt (x := w.setWidth 5)
  have hn : (w.setWidth 5).toInt = n := h.shift
  omega

/-- The long form of an instruction, with the shift of a one-word form in its second word, leaves the
same accumulators, memories and carry as that form where the two are alike, and only there; of an STH
that is known when it stores to ordinary memory. -/
theorem long_form_iff {o : Shifted} {isB : Bool} {form : Form} {c : Ctx} {s : Cpu} {w : Word}
    (hw : (fetchOp2 c (smemAt form.mode c s.start).2).1 = w)
    (henc : Encodes w o isB (form.shift o s)) :
    (Alike o isB form c s →
        Agree (execOp (longOp form.mode) c s).2 (execOp (form.opcode o isB) c s).2) ∧
      ((o = .sth → isCell (form.operand c s).1 = true) →
        Agree (execOp (longOp form.mode) c s).2 (execOp (form.opcode o isB) c s).2 →
        Alike o isB form c s) := by
  obtain ⟨st0, hflag, hsame, hmode⟩ := smemAt_mode form c s
  have hu := loaded_operand form c s
  have hcarry : bitSet st0 St0.c = bitSet (form.operand c s).2.st0 St0.c := hflag _ (by decide)
  rw [execOp_longOp hw henc, hmode, execOp_short]
  cases ho : o.stores with
  | false =>
    have hsth : o ≠ .sth := by
      rintro rfl
      cases ho
    have hread := dataRead_st0_iff (form.operand c s).2 st0 (form.operand c s).1
    rw [agree_sum_iff ho isB _ _ c hcarry, hu.acc, hu.flag _ (by decide), hu.sxm, hu.sxm]
    constructor
    · intro h
      have hword := hread.mpr fun ha =>
        hsame.mpr (Bool.eq_false_iff.mpr fun hmoves => h.operand ho hmoves ha)
      rw [hword]
      exact ⟨rfl, h.carry ho⟩
    · rintro - ⟨hresult, hc⟩
      refine ⟨fun _ hmoves ha => ?_, fun _ => hc, fun h => absurd h hsth⟩
      obtain ⟨k, hk, hshift⟩ := shift_of_movesArp hmoves o
      rw [hshift] at hresult
      have hst0 := hread.mp (shiftAcc_sxm_inj hk (result_inj hresult)) ha
      rw [hsame.mp hst0] at hmoves
      cases hmoves
  | true =>
    cases o with
    | stl =>
      refine ⟨fun _ => agree_dataWrite c hcarry _ _, fun _ _ => ?_⟩
      exact ⟨nofun, nofun, nofun⟩
    | sth =>
      obtain ⟨hagree, hkeeps⟩ := agree_sth isB (form.operand c s).1 c henc.bounds hcarry
      rw [hu.acc] at hagree hkeeps
      refine ⟨fun h => hagree (h.high rfl), fun hcell h => ?_⟩
      exact ⟨nofun, nofun, fun _ => hkeeps (hcell rfl) h⟩
    | add | sub | ld => cases ho

/-- A core in front of a long form: A is -1, ASM and T are 1, AR0 points to T and the other auxiliary
registers to memory. -/
def inFrontOf (mode : BitVec 8) (w : Word) : Cpu :=
  { (boot [longOp mode, w]).toCpu with
    a := -1
    t := 1
    ar := fun n => if n = 0 then 0x0E else 0x0100
    st0 := 0
    st1 := 0x0101 }

/-- LD *AR0, 1, A and LD *AR0, TS, A. -/
theorem long_form_iff_ld :
    Agree (execOp (longOp (Form.smem true 0x80).mode) .boot (inFrontOf 0x80 0x0C41)).2
      (execOp ((Form.smem true 0x80).opcode .ld false) .boot (inFrontOf 0x80 0x0C41)).2 := by
  have henc : Encodes 0x0C41 .ld false ((Form.smem true 0x80).shift .ld (inFrontOf 0x80 0x0C41)) :=
    ⟨by decide, by decide, nofun, by decide +kernel⟩
  have halike : Alike .ld false (.smem true 0x80) .boot (inFrontOf 0x80 0x0C41) :=
    ⟨fun _ => nofun, fun _ => rfl, nofun⟩
  exact (long_form_iff (by decide +kernel) henc).1 halike

/-- ADD *AR0, 0, A leaves C where ADD *AR0, A sets it; and of A = -1, STH A, 1, *AR1 stores 0xFFFE and
STH A, ASM, *AR1 stores 0xFFFF. -/
theorem long_form_differs :
    ((fetchOp2 .boot (smemAt 0x80 .boot (inFrontOf 0x80 0x0C00).start).2).1 = 0x0C00 ∧
      Encodes 0x0C00 .add false ((Form.smem false 0x80).shift .add (inFrontOf 0x80 0x0C00)) ∧
      bitSet (execOp (longOp 0x80) .boot (inFrontOf 0x80 0x0C00)).2.st0 St0.c = false ∧
      bitSet (execOp ((Form.smem false 0x80).opcode .add false) .boot
        (inFrontOf 0x80 0x0C00)).2.st0 St0.c = true ∧
      ¬ Agree (execOp (longOp 0x80) .boot (inFrontOf 0x80 0x0C00)).2
        (execOp ((Form.smem false 0x80).opcode .add false) .boot (inFrontOf 0x80 0x0C00)).2) ∧
    ((fetchOp2 .boot (smemAt 0x81 .boot (inFrontOf 0x81 0x0C61).start).2).1 = 0x0C61 ∧
      Encodes 0x0C61 .sth false ((Form.smem true 0x81).shift .sth (inFrontOf 0x81 0x0C61)) ∧
      (execOp (longOp 0x81) .boot (inFrontOf 0x81 0x0C61)).2.data 0x0100 = 0xFFFE ∧
      (execOp ((Form.smem true 0x81).opcode .sth false) .boot
        (inFrontOf 0x81 0x0C61)).2.data 0x0100 = 0xFFFF) := by
  have hlong : bitSet (execOp (longOp 0x80) .boot (inFrontOf 0x80 0x0C00)).2.st0 St0.c = false := by
    decide +kernel
  have hshort : bitSet (execOp ((Form.smem false 0x80).opcode .add false) .boot
      (inFrontOf 0x80 0x0C00)).2.st0 St0.c = true := by
    decide +kernel
  refine ⟨⟨by decide +kernel, ⟨?_, ?_, ?_, ?_⟩, hlong, hshort, fun h => ?_⟩, by decide +kernel,
    ⟨?_, ?_, ?_, ?_⟩, by decide +kernel, by decide +kernel⟩
  case refine_5 => exact Bool.false_ne_true (hlong.symm.trans (h.carry.trans hshort))
  all_goals decide +kernel

end Qosmo.C54x
