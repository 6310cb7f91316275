import Qosmo.C54x.Pointer

/-!
# Qosmo.C54x.LongWord

Long operands: two words of data memory at an address and at the other address of its aligned pair.

The high word is at the address given, even or odd, and the low word next to it, so that DST and DLD
agree about the order (`dld_of_dst`).
-/

namespace Qosmo.C54x

open BitVec Prog

/-! ### The address -/

/-- Resolving a long operand moves an auxiliary register and notes an `lk` word. -/
theorem resolveLmem_eq (op : Word) (c : Ctx) (s : Cpu) :
    ∃ ar lk, (resolveLmem op c s).2 = { s with ar := ar, lkUsed := lk } := by
  unfold resolveLmem
  split
  · exact ⟨_, _, rfl⟩
  · exact ⟨s.ar, s.lkUsed, rfl⟩

/-! ### DST -/

/-- DST and DLD with accumulator bit and addressing mode `f`. -/
def dst (f : BitVec 9) : Word := withField 0x4E00 f
def dld (f : BitVec 9) : Word := withField 0x5600 f

theorem decode_dst (f : BitVec 9) : decode (dst f) = .plain execDst :=
  decode_of_first (withField_and (by decide) f) (by decide) rfl

theorem decode_dld (f : BitVec 9) : decode (dld f) = .plain execLong := by
  have hbits : dld f &&& 0xFE00 = 0x5600 := withField_and (by decide) f
  have hop : dld f &&& 0xF000 = 0x5000 := and_of_and hbits (by decide)
  exact decode_of_first hop (by decide) rfl

theorem execDst_snd (op : Word) (c : Ctx) (s : Cpu) :
    (execDst op c s).2 = dataWrite c (dataWrite c (resolveLmem op c s).2 (resolveLmem op c s).1
      (hi16 (s.acc (dstB op)))) ((resolveLmem op c s).1 ^^^ 1) (lowWord (s.acc (dstB op))) := rfl

theorem xor_one_ne (a : Word) : a ^^^ 1 ≠ a := by
  intro h
  have hbit := congrArg (·.getLsbD 0) h
  simp at hbit

theorem dataRead_moved {b : Word} (hb : 0x20 ≤ b) (s : Cpu) (ar : BitVec 3 → Word) (lk : Bool) :
    dataRead { s with ar := ar, lkUsed := lk } b = dataRead s b := by
  have hlt : ¬ b < 0x20 := by bv_omega
  simp only [dataRead, hlt, if_false]

variable {a : Word}

theorem dataWrite_cell_eq (ha : isCell a) (c : Ctx) (s : Cpu) (v : Word) :
    ∃ data ram, dataWrite c s a v = { s with data := data, apiRam := ram } := by
  rw [dataWrite_cell ha]
  split
  · exact ⟨_, _, rfl⟩
  · exact ⟨_, s.apiRam, rfl⟩

/-- A store at a word of data memory shows in program memory at the same address at most. -/
theorem progFetch_dataWrite {b : Word} (ha : isCell a) (hne : b ≠ a) (c : Ctx) (s : Cpu)
    (v : Word) : progFetch (dataWrite c s a v) b = progFetch s b :=
  (stored_dataWrite c s ha v).rest (.prog b) ⟨trivial, fun h => hne h.1⟩

/-- What DST stores, and that it changes nothing else but the auxiliary register it steps. -/
theorem runOp_dst (f : BitVec 9) (c : Ctx) (s : Cpu)
    (ha : (resolveLmem (dst f) c s.start).1 = a) (hcell : isCell a)
    (hpair : isCell (a ^^^ 1)) :
    dataRead (runOp c (dst f) s) a = hi16 (s.acc (bitSet f 8)) ∧
      dataRead (runOp c (dst f) s) (a ^^^ 1) = lowWord (s.acc (bitSet f 8)) ∧
      (∃ ar lk data ram, runOp c (dst f) s =
        { s with ar := ar, lkUsed := lk, data := data, apiRam := ram }) ∧
      (∀ b, 0x20 ≤ b → b ≠ a → b ≠ a ^^^ 1 → dataRead (runOp c (dst f) s) b = dataRead s b) ∧
      ∀ b, b ≠ a → b ≠ a ^^^ 1 → progFetch (runOp c (dst f) s) b = progFetch s b := by
  obtain ⟨ar, lk, hlmem⟩ := resolveLmem_eq (dst f) c s.start
  have hdst : dstB (dst f) = bitSet f 8 := dstB_withField (by decide) f
  have hexec : (execOp (dst f) c s).2 = dataWrite c (dataWrite c { s with ar := ar, lkUsed := lk } a
      (hi16 (s.acc (bitSet f 8)))) (a ^^^ 1) (lowWord (s.acc (bitSet f 8))) := by
    rw [execOp_plain (decode_dst f), execDst_snd, hlmem, ha, hdst]
    rfl
  obtain ⟨data, ram, hfirst⟩ := dataWrite_cell_eq hcell c { s with ar := ar, lkUsed := lk }
    (hi16 (s.acc (bitSet f 8)))
  obtain ⟨data', ram', hsecond⟩ := dataWrite_cell_eq hpair c
    (dataWrite c { s with ar := ar, lkUsed := lk } a (hi16 (s.acc (bitSet f 8))))
    (lowWord (s.acc (bitSet f 8)))
  have hstate : (execOp (dst f) c s).2 =
      { s with ar := ar, lkUsed := lk, data := data', apiRam := ram' } := by
    rw [hexec, hsecond, hfirst]
  have hpass : runOp c (dst f) s = (execOp (dst f) c s).2 := by
    rw [runOp, overflowPass_of_eq (by rw [hstate]) (by rw [hstate])]
  have hne : a ≠ a ^^^ 1 := (xor_one_ne a).symm
  refine ⟨?_, ?_, ⟨ar, lk, data', ram', hpass.trans hstate⟩, fun b hge hb hb' => ?_,
    fun b hb hb' => ?_⟩
  · rw [hpass, hexec, dataRead_dataWrite_ne hpair hcell hne, dataRead_dataWrite_same hcell]
  · rw [hpass, hexec, dataRead_dataWrite_same hpair]
  · rw [hpass, hexec, dataRead_dataWrite_apart hpair hge hb', dataRead_dataWrite_apart hcell hge hb]
    exact dataRead_moved hge s ar lk
  · rw [hpass, hexec, progFetch_dataWrite hpair hb', progFetch_dataWrite hcell hb]
    rfl

/-! ### DLD -/

/-- The long word made of two words, as DLD takes it with SXM set and C16 clear. -/
def longWord (hi lo : Word) : Acc :=
  ((hi.setWidth 32 <<< 16) ||| lo.setWidth 32 : BitVec 32).signExtend 64

theorem longWord_halves (v : Acc) :
    longWord (hi16 v) (lowWord v) = (v.setWidth 32).signExtend 64 := by
  unfold longWord
  congr 1
  apply eq_of_getLsbD_eq
  intro i hi
  simp only [hi16, lowWord, getLsbD_or, getLsbD_shiftLeft, getLsbD_setWidth,
    getLsbD_ushiftRight]
  by_cases hlow : i < 16
  · simp [hlow, hi]
  · have hsub : i - 16 < 16 := by omega
    have hadd : 16 + (i - 16) = i := by omega
    have hsub' : i - 16 < 32 := by omega
    simp [hlow, hi, hsub, hadd, hsub']

theorem execLong_dld {op : Word} (hop : op &&& 0xFE00 = 0x5600) (c : Ctx) {s : Cpu}
    (hc16 : bitSet s.st1 St1.c16 = false) (hsxm : bitSet s.st1 St1.sxm) :
    (execLong op c s).2 = (setAcc (dstB op) (sext40 (longWord
      (dataRead (resolveLmem op c s).2 (resolveLmem op c s).1)
      (dataRead (resolveLmem op c s).2 ((resolveLmem op c s).1 ^^^ 1)))) c
        (resolveLmem op c s).2).2 := by
  have hkind : 6 ≤ ((op >>> 8) &&& 0xF).toNat ∧ ((op >>> 8) &&& 0xF).toNat ≤ 7 := by
    have hhigh := congrArg BitVec.toNat (ushiftRight_withField 0x5600 (op.setWidth 9))
    rw [← eq_withField hop, toNat_ushiftRight, Nat.shiftRight_eq_div_pow] at hhigh
    rw [toNat_and, toNat_ushiftRight, Nat.shiftRight_eq_div_pow,
      show (0xF : Word).toNat = 2 ^ 4 - 1 from rfl, Nat.and_two_pow_sub_one_eq_mod]
    change op.toNat / 2 ^ 9 = 43 at hhigh
    omega
  have h3 : ¬ ((op >>> 8) &&& 0xF).toNat ≤ 0x3 := by omega
  have h5 : ¬ ((op >>> 8) &&& 0xF).toNat ≤ 0x5 := by omega
  obtain ⟨ar, lk, hlmem⟩ := resolveLmem_eq op c s
  have hst1 : (resolveLmem op c s).2.st1 = s.st1 := by rw [hlmem]
  rw [← hst1] at hc16 hsxm
  unfold execLong
  simp only [h3, h5, hkind.2, if_false, if_true]
  rw [run_bind]
  generalize (resolveLmem op c s).2 = u at hc16 hsxm ⊢
  generalize (resolveLmem op c s).1 = a
  have hrd : ∀ x, rd x c u = (dataRead u x, u) := fun _ => rfl
  rw [run_bind, hrd, run_bind, hrd, run_get_bind, run_bind, hc16, hsxm, if_neg Bool.false_ne_true,
    if_pos rfl]
  rfl

theorem toInt_signExtend32 (x : BitVec 32) :
    sext40 (x.signExtend 64) = x.signExtend 64 ∧
      -2 ^ 31 ≤ (x.signExtend 64).toInt ∧ (x.signExtend 64).toInt < 2 ^ 31 := by
  have hint : (x.signExtend 64).toInt = x.toInt := toInt_signExtend_of_le (by omega)
  have hlow : -2 ^ 31 ≤ x.toInt := le_toInt x
  have hhigh : x.toInt < 2 ^ 31 := toInt_lt
  refine ⟨eq_of_toInt_eq ?_, by omega, by omega⟩
  rw [toInt_sext40_bmod, hint, Int.bmod_eq_of_le (by omega) (by omega)]

theorem acc_dld (f : BitVec 9) (c : Ctx) {s : Cpu}
    (ha : (resolveLmem (dld f) c s.start).1 = a) (hge : 0x20 ≤ a) (hpair : 0x20 ≤ a ^^^ 1)
    (hc16 : bitSet s.st1 St1.c16 = false) (hsxm : bitSet s.st1 St1.sxm) :
    (runOp c (dld f) s).acc (bitSet f 8) = longWord (dataRead s a) (dataRead s (a ^^^ 1)) := by
  have hop : dld f &&& 0xFE00 = 0x5600 := withField_and (by decide) f
  have hdst : dstB (dld f) = bitSet f 8 := dstB_withField (by decide) f
  obtain ⟨ar, lk, hlmem⟩ := resolveLmem_eq (dld f) c s.start
  have hread : ∀ b, 0x20 ≤ b → dataRead (resolveLmem (dld f) c s.start).2 b = dataRead s b := by
    intro b hb
    rw [hlmem]
    exact dataRead_moved hb s ar lk
  obtain ⟨hsext, hlow, hhigh⟩ := toInt_signExtend32
    (((dataRead s a).setWidth 32 <<< 16) ||| (dataRead s (a ^^^ 1)).setWidth 32)
  refine acc_runOp_of_keeps ?_ (.inr ?_)
  · rw [execOp_plain (decode_dld f), execLong_dld (s := s.start) hop c hc16 hsxm, hdst, acc_setAcc, ha,
      hread _ hge, hread _ hpair]
    exact hsext
  · rw [longWord, hsext]
    exact ⟨hlow, hhigh⟩

/-- At every address of ordinary memory, even or odd, DLD loads what DST has stored there: the low 32
bits of the accumulator, sign-extended. DST changes no other word of data or program memory, and no
register but the one it steps. -/
theorem dld_of_dst (f f' : BitVec 9) (c c' : Ctx) (s : Cpu) {a : Word}
    (hdst : (resolveLmem (dst f) c s.start).1 = a)
    (hdld : (resolveLmem (dld f') c' (runOp c (dst f) s).start).1 = a)
    (hcell : isCell a = true) (hpair : isCell (a ^^^ 1) = true)
    (hc16 : bitSet s.st1 St1.c16 = false) (hsxm : bitSet s.st1 St1.sxm = true) :
    (runOp c' (dld f') (runOp c (dst f) s)).acc (bitSet f' 8) =
        ((s.acc (bitSet f 8)).setWidth 32).signExtend 64 ∧
      (∃ ar lk data ram, runOp c (dst f) s =
        { s with ar := ar, lkUsed := lk, data := data, apiRam := ram }) ∧
      (∀ b, 0x20 ≤ b → b ≠ a → b ≠ a ^^^ 1 → dataRead (runOp c (dst f) s) b = dataRead s b) ∧
      ∀ b, b ≠ a → b ≠ a ^^^ 1 → progFetch (runOp c (dst f) s) b = progFetch s b := by
  obtain ⟨hhi, hlo, hstate, hdata, hprog⟩ := runOp_dst f c s hdst hcell hpair
  refine ⟨?_, hstate, hdata, hprog⟩
  have hst1 : (runOp c (dst f) s).st1 = s.st1 := by
    obtain ⟨ar, lk, data, ram, heq⟩ := hstate
    rw [heq]
  rw [acc_dld f' c' hdld (isCell_iff.mp hcell).1 (isCell_iff.mp hpair).1 (by rw [hst1, hc16])
    (by rw [hst1, hsxm]), hhi, hlo, longWord_halves]

/-- A core with AR2 at the odd address 0x0101 and SXM set, as behind a reset. -/
def atOdd : Cpu := { (boot []).toCpu with a := 0x123456789A, ar := fun _ => 0x0101 }

theorem dld_of_dst_odd :
    (runOp .boot (dld 0x182) (runOp .boot (dst 0x082) atOdd)).acc true = 0x3456789A ∧
      ∀ b, 0x20 ≤ b → b ≠ 0x0101 → b ≠ 0x0100 →
        dataRead (runOp .boot (dst 0x082) atOdd) b = dataRead atOdd b := by
  have h := dld_of_dst 0x082 0x182 .boot .boot atOdd (a := 0x0101) (by decide +kernel)
    (by decide +kernel) (by decide +kernel) (by decide +kernel) (by decide +kernel)
    (by decide +kernel)
  refine ⟨h.1.trans (by decide +kernel), h.2.2.1⟩

end Qosmo.C54x
