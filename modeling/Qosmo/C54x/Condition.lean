import Qosmo.C54x.Accum
import Qosmo.C54x.Family
import Qosmo.Lib.Prog

/-!
# Qosmo.C54x.Condition

The conditional instructions: BC, BCD, CC, CCD, RC, RCD and XC.

A condition is a byte of the opcode. CC and CCD, and BCD for accumulator tests, hand it to
`c54x_cond_true`; RC and RCD, XC, and BC and BCD for the rest evaluate it in place. The
first half of this module says what each instruction evaluates (`Conditional.cond`) and that
its verdict is what decides the transfer; the second half compares the evaluations.
-/

namespace Qosmo.C54x

open BitVec Prog

theorem fetchAt_state (off : Nat) (c : Ctx) (s : Cpu) : (fetchAt off c s).2 = s := rfl

/-! ### What an evaluation leaves behind -/

variable {cc : Word}

theorem low_ne_zero (h6 : bitSet cc 6) : cc &&& 0xFF ≠ 0 := by
  intro hzero
  have hand : bitSet (cc &&& 0xFF) 6 = bitSet cc 6 := by simp [bitSet]
  rw [hzero, h6] at hand
  exact absurd hand (by decide)

theorem bit6_of_overflow (h : cc &&& 0x70 = 0x70 ∨ cc &&& 0x70 = 0x60) : bitSet cc 6 := by
  have hand : bitSet (cc &&& 0x70) 6 = bitSet cc 6 := by simp [bitSet]
  rw [← hand]
  rcases h with h | h <;> rw [h] <;> rfl

/-- The condition of XC with its mixtures read as `rest`. -/
def xcCode (s : Cpu) (acc : Int) (rest : Bool) : Nat → Exec Bool
  | 0x00 => return true
  | 0x0C => return bitSet s.st0 St0.c
  | 0x08 => return !bitSet s.st0 St0.c
  | 0x30 => return bitSet s.st0 St0.tc
  | 0x20 => return !bitSet s.st0 St0.tc
  | 0x45 | 0x4D => return decide (acc = 0)
  | 0x44 | 0x4C => return decide (acc ≠ 0)
  | 0x46 | 0x4E => return decide (0 < acc)
  | 0x42 | 0x4A => return decide (0 ≤ acc)
  | 0x43 | 0x4B => return decide (acc < 0)
  | 0x47 | 0x4F => return decide (acc ≤ 0)
  | 0x70 => do putSt0 St0.ova false; return bitSet s.st0 St0.ova
  | 0x60 => do putSt0 St0.ova false; return !bitSet s.st0 St0.ova
  | 0x78 => do putSt0 St0.ovb false; return bitSet s.st0 St0.ovb
  | 0x68 => do putSt0 St0.ovb false; return !bitSet s.st0 St0.ovb
  | _ => return rest

theorem xcCond_eq (cc : Word) (c : Ctx) (s : Cpu) : ∃ rest,
    xcCond cc c s = xcCode s (sext40 (s.acc (bitSet cc 3))).toInt rest cc.toNat c s := by
  simp only [xcCond, run_get_bind]
  split <;> exact ⟨_, rfl⟩

theorem xcCode_state (s : Cpu) (acc : Int) (rest : Bool) (n : Nat) (c : Ctx) :
    (xcCode s acc rest n c s).2 =
      if n = 0x70 ∨ n = 0x60 then { s with st0 := clearBit s.st0 St0.ova }
      else if n = 0x78 ∨ n = 0x68 then { s with st0 := clearBit s.st0 St0.ovb }
      else s := by
  unfold xcCode
  split
  all_goals first | rfl | skip
  rename_i h70 h60 h78 h68
  rw [if_neg fun h => h.elim h70 h60, if_neg fun h => h.elim h78 h68]
  rfl

section

variable (cc : Word) (c : Ctx) (s : Cpu)

/-- XC clears the flag it tests. -/
theorem xcCond_state : (xcCond cc c s).2 =
    if cc.toNat = 0x70 ∨ cc.toNat = 0x60 then { s with st0 := clearBit s.st0 St0.ova }
    else if cc.toNat = 0x78 ∨ cc.toNat = 0x68 then { s with st0 := clearBit s.st0 St0.ovb }
    else s := by
  obtain ⟨rest, heq⟩ := xcCond_eq cc c s
  rw [heq, xcCode_state]

theorem retCond_state : (retCond cc c s).2 = s := by
  simp only [retCond, run_get_bind]
  repeat' first | rfl | split

/-- `c54x_cond_true` clears the bit it tests, bit 9 for B and bit 8 for A. -/
theorem condTrue_state : (condTrue cc c s).2 =
    if cc &&& 0x70 = 0x70 ∨ cc &&& 0x70 = 0x60 then
      { s with st0 := clearBit s.st0 (if bitSet cc 3 then 9 else 8) }
    else s := by
  cases h6 : bitSet cc 6 with
  | false =>
    rw [if_neg fun h => by simp [bit6_of_overflow h] at h6]
    simp only [condTrue, run_get_bind, h6]
    split <;> rfl
  | true =>
    simp only [condTrue, run_get_bind, low_ne_zero h6, h6, if_true, if_false]
    by_cases h70 : cc &&& 0x70 = 0x70
    · simp only [h70, if_true, true_or]
      rfl
    · by_cases h60 : cc &&& 0x70 = 0x60
      · rw [if_neg h70, if_pos h60, if_pos (Or.inr h60)]
        rfl
      · rw [if_neg h70, if_neg h60, if_neg fun h => h.elim h70 h60]
        rfl

end

/-- The conjunction of the conditions of the TC, the carry and the BIO group. -/
def groups (cc : Word) (s : Cpu) : Bool :=
  (cc &&& 0x30 != 0x30 || bitSet s.st0 St0.tc) && (cc &&& 0x30 != 0x20 || !bitSet s.st0 St0.tc) &&
    (cc &&& 0x0C != 0x0C || bitSet s.st0 St0.c) && (cc &&& 0x0C != 0x08 || !bitSet s.st0 St0.c) &&
    cc &&& 0x03 != 0x03

theorem condTrue_of_not_acc (h6 : bitSet cc 6 = false) (c : Ctx) (s : Cpu) :
    condTrue cc c s = (groups cc s, s) := by
  by_cases h0 : cc &&& 0xFF = 0
  · have hsub : ∀ m : Word, 0xFF &&& m = m → cc &&& m = 0 := by
      intro m hm
      rw [← hm, ← BitVec.and_assoc, h0]
      exact zero_and
    have hgroups : groups cc s := by
      simp only [groups, hsub 0x30 rfl, hsub 0x0C rfl, hsub 0x03 rfl]
      rfl
    rw [hgroups]
    simp only [condTrue, run_get_bind, h0, if_true]
    rfl
  · simp only [condTrue, run_get_bind, h0, h6, if_false, Bool.false_eq_true]
    rfl

/-- Outside the accumulator tests the conditions of the three groups are conjoined. -/
theorem condTrue_groups (h6 : bitSet cc 6 = false) (c : Ctx) (s : Cpu) :
    (condTrue cc c s).1 = ((condTrue (cc &&& 0x30) c s).1 && (condTrue (cc &&& 0x0C) c s).1 &&
      (condTrue (cc &&& 0x03) c s).1) := by
  have hbit : ∀ m : Word, bitSet m 6 = false → bitSet (cc &&& m) 6 = false := by
    intro m hm
    simp only [bitSet, getLsbD_and] at hm ⊢
    rw [hm, Bool.and_false]
  have hand : ∀ m n : Word, cc &&& m &&& n = cc &&& (m &&& n) := fun m n => BitVec.and_assoc ..
  rw [condTrue_of_not_acc h6, condTrue_of_not_acc (hbit 0x30 rfl),
    condTrue_of_not_acc (hbit 0x0C rfl), condTrue_of_not_acc (hbit 0x03 rfl)]
  simp only [groups, hand]
  simp [Bool.and_assoc]

/-- For an accumulator test RC and RCD reach the verdict of `c54x_cond_true`. -/
theorem retCond_acc (h6 : bitSet cc 6) (c : Ctx) (s : Cpu) :
    (retCond cc c s).1 = (condTrue cc c s).1 := by
  have hne : cc ≠ 0 := by
    rintro rfl
    exact low_ne_zero h6 rfl
  simp only [condTrue, retCond, run_get_bind, low_ne_zero h6, hne, h6, if_true, if_false]
  by_cases h70 : cc &&& 0x70 = 0x70
  · simp only [h70, if_true]
    rfl
  · by_cases h60 : cc &&& 0x70 = 0x60
    · simp only [h60, if_true]
      rfl
    · simp only [h70, h60, if_false]

/-- The condition codes other than the overflow tests. -/
def singles : List Word :=
  [0x00, 0x08, 0x0C, 0x20, 0x30, 0x42, 0x43, 0x44, 0x45, 0x46, 0x47, 0x4A, 0x4B, 0x4C, 0x4D, 0x4E,
    0x4F]

theorem singles_agree (c : Ctx) (s : Cpu) : ∀ cc ∈ singles,
    retCond cc c s = condTrue cc c s ∧ xcCond cc c s = condTrue cc c s := by
  simp only [singles, List.forall_mem_cons, List.not_mem_nil, false_imp_iff, implies_true,
    and_true]
  constructorm* _ ∧ _
  all_goals first
    | rfl
    | (rw [condTrue_of_not_acc rfl]
       simp [retCond, xcCond, groups, run_get_bind, run_pure, bitSet])

/-! ### The instructions -/

/-- The conditional instructions; XC covers one word or two. -/
inductive Conditional where
  | bc | bcd | cc | ccd | rc | rcd
  | xc (two : Bool)
  deriving DecidableEq, Repr

namespace Conditional

/-! ### What the instructions evaluate -/

/-- The opcode with an empty condition byte. -/
def base : Conditional → Word
  | .bc => 0xF800
  | .cc => 0xF900
  | .bcd => 0xFA00
  | .ccd => 0xFB00
  | .rc => 0xFC00
  | .rcd => 0xFE00
  | .xc false => 0xFD00
  | .xc true => 0xFF00

def opcode (i : Conditional) (cc : Word) : Word := i.base ||| cc

/-- The condition of BC. Below 0x20 and from 0x60 on it is decoded as BANZ. -/
def bcCond (cc : Word) : Exec Bool := do
  let s ← get
  if cc < 0x20 ∨ 0x60 ≤ cc then return decide (s.ar (cc.setWidth 3) ≠ 0)
  else if cc < 0x40 then
    let ntc := cc &&& 0xF0 == 0x20
    return if tcStrict s then bitSet s.st0 St0.tc != ntc else decide (accSigned s.a = 0) != ntc
  else return (accTest (cc &&& 7).toNat (accSigned (s.acc (bitSet cc 3)))).getD false

def bcdCond (cc : Word) : Exec Bool := do
  let s ← get
  if (cc &&& 0xF0 == 0x20 || cc &&& 0xF0 == 0x30) && tcStrict s then
    return bitSet s.st0 St0.tc != (cc &&& 0xF0 == 0x20)
  else if bitSet cc 6 then condTrue cc
  else return true

def cond : Conditional → Word → Exec Bool
  | .bc => bcCond
  | .bcd => bcdCond
  | .cc | .ccd => condTrue
  | .rc | .rcd => retCond
  | .xc _ => xcCond

/-- Control goes somewhere else than to the next words. -/
def transfers : Outcome → Bool
  | .flow (.next _) => false
  | _ => true

/-- Is the branch, call or return taken? XC lets the next words run by falling through. -/
def verdict (i : Conditional) (cc : Word) (c : Ctx) (s : Cpu) : Bool :=
  match i with
  | .xc _ => decide ((execOp (i.opcode cc) c s).1 = .flow (.next 1))
  | _ => transfers (execOp (i.opcode cc) c s).1

/-! ### The condition decides -/

variable {cc : Word}

theorem getLsbD_condition (hcc : cc < 0x80) {k : Nat} (hk : 7 ≤ k) : cc.getLsbD k = false := by
  have hlt : cc.toNat < 2 ^ 7 := hcc
  exact Nat.testBit_lt_two_pow (hlt.trans_le (Nat.pow_le_pow_right (by decide) hk))

/-- Below bit 8 an opcode is its condition byte, above it is its base. -/
theorem getLsbD_opcode (i : Conditional) (hcc : cc < 0x80) (k : Nat) :
    (i.opcode cc).getLsbD k = if k < 8 then cc.getLsbD k else i.base.getLsbD k := by
  have hbase : ∀ k < 8, i.base.getLsbD k = false := by
    cases i with
    | xc two => cases two <;> decide
    | _ => decide
  rw [opcode, getLsbD_or]
  split
  · rename_i hk
    rw [hbase k hk, Bool.false_or]
  · rw [getLsbD_condition hcc (by omega), Bool.or_false]

theorem and_opcode (i : Conditional) {m : Word} (hcc : cc < 0x80)
    (hm : ∀ k < 16, m.getLsbD k → k < 8) : i.opcode cc &&& m = cc &&& m := by
  apply eq_of_getLsbD_eq
  intro k hk
  rw [getLsbD_and, getLsbD_and, getLsbD_opcode i hcc]
  cases hbit : m.getLsbD k with
  | true => rw [if_pos (hm k hk hbit)]
  | false => rw [Bool.and_false, Bool.and_false]

theorem and_condition {m : Word} (hcc : cc < 0x80) (hm : ∀ k < 7, m.getLsbD k) :
    cc &&& m = cc := by
  apply eq_of_getLsbD_eq
  intro k hk
  rw [getLsbD_and]
  by_cases hlow : k < 7
  · rw [hm k hlow, Bool.and_true]
  · rw [getLsbD_condition hcc (by omega), Bool.false_and]

theorem opcode_fields (i : Conditional) (hcc : cc < 0x80) :
    i.opcode cc &&& 0xFF00 = i.base ∧ i.opcode cc &&& 0xFF = cc ∧ i.opcode cc &&& 0x7F = cc ∧
      bitSet (i.opcode cc) 7 = false ∧ bitSet (i.opcode cc) 6 = bitSet cc 6 ∧
      bitSet (i.opcode cc) 3 = bitSet cc 3 ∧ i.opcode cc &&& 0xF0 = cc &&& 0xF0 ∧
      i.opcode cc &&& 7 = cc &&& 7 ∧ (i.opcode cc).setWidth 3 = cc.setWidth 3 := by
  have hbase : i.opcode cc &&& 0xFF00 = i.base := by
    have hhigh : cc &&& 0xFF00 = 0 := by
      rw [← and_condition (m := 0x7F) hcc (by decide), BitVec.and_assoc]
      exact and_zero
    have hown : i.base &&& 0xFF00 = i.base := by
      cases i with
      | xc two => cases two <;> decide
      | _ => decide
    rw [opcode, and_or_distrib_right, hown, hhigh]
    exact or_zero
  refine ⟨hbase, ?_, ?_, ?_, ?_, ?_, and_opcode i hcc (by decide), and_opcode i hcc (by decide), ?_⟩
  · rw [and_opcode i hcc (by decide), and_condition hcc (by decide)]
  · rw [and_opcode i hcc (by decide), and_condition hcc (by decide)]
  · rw [bitSet, getLsbD_opcode i hcc, if_pos (by decide), getLsbD_condition hcc (by decide)]
  · rw [bitSet, getLsbD_opcode i hcc, if_pos (by decide), bitSet]
  · rw [bitSet, getLsbD_opcode i hcc, if_pos (by decide), bitSet]
  · apply eq_of_getLsbD_eq
    intro k hk
    rw [getLsbD_setWidth, getLsbD_setWidth, getLsbD_opcode i hcc, if_pos (by omega)]

theorem verdict_of_control {i : Conditional} {f : Word → Exec Flow} {m : Exec Bool}
    {c : Ctx} (hop : decode (i.opcode cc) = .control f) (hi : ∀ two, i ≠ .xc two)
    (hf : ∀ t, transfers (.flow (f (i.opcode cc) c t).1) = (m c t).1) (s : Cpu) :
    i.verdict cc c s = (m c { s with lkUsed := false }).1 := by
  have hrun : transfers (execOp (i.opcode cc) c s).1 = (m c { s with lkUsed := false }).1 := by
    rw [execOp_of_decode hop, run_control]
    exact hf _
  cases i with
  | xc two => exact absurd rfl (hi two)
  | _ => exact hrun

theorem verdict_bcd (hcc : cc < 0x80) (c : Ctx) (s : Cpu) :
    verdict .bcd cc c s = (bcdCond cc c { s with lkUsed := false }).1 := by
  obtain ⟨hhi, -, hlow, h7, h6, -, hf0, -⟩ := opcode_fields .bcd hcc
  refine verdict_of_control (decode_of_first hhi rfl rfl) nofun (fun t => ?_) s
  simp only [execBcd, bcdCond, h7, h6, hf0, hlow, run_get_bind]
  simp only [run_bind, run_pure, run_ite, fetchAt_state, Bool.false_eq_true, if_false]
  cases (cc &&& 0xF0 == 0x20 || cc &&& 0xF0 == 0x30) && tcStrict t with
  | true =>
    simp only [if_true]
    cases bitSet t.st0 St0.tc != (cc &&& 0xF0 == 0x20) <;> rfl
  | false =>
    simp only [Bool.false_eq_true, if_false]
    cases bitSet cc 6 with
    | true =>
      simp only [if_true]
      cases (condTrue cc c t).1 <;> rfl
    | false => rfl

theorem xcCond_lkUsed (cc : Word) (c : Ctx) (s : Cpu) : (xcCond cc c s).2.lkUsed = s.lkUsed := by
  rw [xcCond_state]
  split
  · rfl
  · split <;> rfl

theorem verdict_xc (two : Bool) (hcc : cc < 0x80) (c : Ctx) (s : Cpu) :
    verdict (.xc two) cc c s = (xcCond cc c { s with lkUsed := false }).1 := by
  obtain ⟨hhi, hff, -⟩ := opcode_fields (.xc two) hcc
  have hop : decode (opcode (.xc two) cc) = .plain (execXc (if two then 2 else 1)) := by
    cases two <;> exact decode_of_first hhi rfl rfl
  show decide ((execOp (opcode (.xc two) cc) c s).1 = .flow (.next 1)) = _
  rw [execOp_of_decode hop, run_plain]
  have hlk := xcCond_lkUsed cc c { s with lkUsed := false }
  simp only [execXc, hff, run_bind, run_pure, run_ite]
  cases (xcCond cc c { s with lkUsed := false }).1 with
  | true =>
    simp only [if_true, done, run_get_bind, run_pure, hlk]
    rfl
  | false => cases two <;> rfl

/-- The tests that remain for BC. -/
def bcEntries : List Entry :=
  [control 0xFFE0 0xF820 execBcTc, control 0xFF80 0xF880 execFb, control 0xFFE0 0xF860 execBanzAr,
    control 0xFFE0 0xF840 execBcAcc, control 0xFFE0 0xF800 execBanzSmem]

def bcCode (cc : Word) : Word → Exec Flow :=
  if cc < 0x20 then execBanzSmem
  else if cc < 0x40 then execBcTc
  else if cc < 0x60 then execBcAcc
  else execBanzAr

theorem decode_bc (hcc : cc < 0x80) : decode (opcode .bc cc) = .control (bcCode cc) := by
  have hidx : ∀ n < 128, bcEntries.findIdx? (·.hits (opcode .bc (BitVec.ofNat 16 n))) =
      if n < 32 then some 4 else if n < 64 then some 0 else if n < 96 then some 3 else some 2 := by
    decide +kernel
  have hcc' := hidx cc.toNat hcc
  rw [ofNat_toNat, setWidth_eq] at hcc'
  have hact : (bcEntries.find? (·.hits (opcode .bc cc))).map Entry.act =
      some (.control (bcCode cc)) := by
    have hcc32 : cc < 0x20 ↔ cc.toNat < 32 := Iff.rfl
    have hcc64 : cc < 0x40 ↔ cc.toNat < 64 := Iff.rfl
    have hcc96 : cc < 0x60 ↔ cc.toNat < 96 := Iff.rfl
    rw [List.find?_eq_bind_findIdx?_getElem?, hcc']
    unfold bcCode
    simp only [hcc32, hcc64, hcc96]
    split_ifs <;> rfl
  obtain ⟨e, he, hcode⟩ := Option.map_eq_some_iff.mp hact
  rw [← hcode]
  exact decode_of_fits (opcode_fields .bc hcc).1 rfl rfl he

theorem verdict_bc (hcc : cc < 0x80) (c : Ctx) (s : Cpu) :
    verdict .bc cc c s = (bcCond cc c { s with lkUsed := false }).1 := by
  obtain ⟨-, -, -, -, -, h3, hf0, h7, har⟩ := opcode_fields .bc hcc
  refine verdict_of_control (decode_bc hcc) nofun (fun t => ?_) s
  unfold bcCode
  simp only [bcCond, run_get_bind]
  by_cases h20 : cc < 0x20
  · simp only [h20, if_true, true_or, execBanzSmem, har, run_get_bind]
    simp only [run_bind, run_ite, run_pure]
    by_cases hzero : t.ar (cc.setWidth 3) = 0
    all_goals
      simp only [hzero, ne_eq, not_true, not_false_iff, if_true, if_false]
      rfl
  · simp only [h20, if_false, false_or]
    by_cases h40 : cc < 0x40
    · have h60 : ¬ (0x60 ≤ cc) := by bv_omega
      simp only [h40, h60, if_true, if_false, execBcTc, hf0, run_get_bind]
      simp only [run_bind, run_ite, run_pure]
      cases (if tcStrict t then bitSet t.st0 St0.tc != (cc &&& 0xF0 == 0x20)
        else decide (accSigned t.a = 0) != (cc &&& 0xF0 == 0x20)) <;> rfl
    · by_cases h60 : cc < 0x60
      · have h60' : ¬ (0x60 ≤ cc) := by bv_omega
        simp only [h40, h60, h60', if_true, if_false, execBcAcc, h7, h3, run_get_bind]
        simp only [run_bind, run_ite, run_pure]
        cases (accTest (cc &&& 7).toNat (accSigned (t.acc (bitSet cc 3)))).getD false <;> rfl
      · have h60' : 0x60 ≤ cc := by bv_omega
        simp only [h40, h60, h60', if_true, if_false, execBanzAr, har, run_get_bind]
        simp only [run_bind, run_ite, run_pure]
        by_cases hzero : t.ar (cc.setWidth 3) = 0
        all_goals
          simp only [hzero, ne_eq, not_true, not_false_iff, if_true, if_false]
          rfl

theorem verdict_eq (i : Conditional) (hcc : cc < 0x80) (c : Ctx) (s : Cpu) :
    i.verdict cc c s = (i.cond cc c { s with lkUsed := false }).1 := by
  have hfields := opcode_fields i hcc
  cases i with
  | bc => exact verdict_bc hcc c s
  | bcd => exact verdict_bcd hcc c s
  | cc | ccd =>
    obtain ⟨hhi, -, hlow, h7, -⟩ := hfields
    refine verdict_of_control (decode_of_first hhi rfl rfl) nofun (fun t => ?_) s
    simp only [cond, execCc, execCcd, h7, hlow, run_bind, run_pure, run_ite, fetchAt_state]
    cases (condTrue cc c t).1 <;> rfl
  | rc | rcd =>
    obtain ⟨hhi, hff, -⟩ := hfields
    refine verdict_of_control (decode_of_first hhi rfl rfl) nofun (fun t => ?_) s
    simp only [cond, execRc, execRcd, hff, run_bind, run_pure, run_ite]
    cases (retCond cc c t).1 <;> rfl
  | xc two => exact verdict_xc two hcc c s

/-! ### The evaluations compared -/

/-- The accumulator holds a number of 40 bits, sign extended or not. -/
def Holds40 (v : Acc) : Prop := v.toNat < 2 ^ 40 ∨ sext40 v = v

/-- The sign extension of BC is then that of `c54x_cond_true`. -/
theorem accSigned_eq {v : Acc} (h : Holds40 v) : accSigned v = (sext40 v).toInt := by
  have hbit : bitSet v 39 = decide (v.toNat / 2 ^ 39 % 2 = 1) := by
    rw [bitSet, BitVec.getLsbD, Nat.testBit_eq_decide_div_mod_eq]
  unfold accSigned
  cases h39 : bitSet v 39 with
  | true =>
    have hext : v ||| ~~~ mask40 = sext40 v := by
      have hmask : ∀ i < 64, (~~~ mask40).getLsbD i = decide (40 ≤ i) := by decide
      apply eq_of_getLsbD_eq
      intro i hi
      rw [getLsbD_or, hmask i hi, sext40, getLsbD_signExtend, msb_setWidth]
      by_cases hlow : i < 40
      · simp [hi, hlow]
      · simp only [bitSet] at h39
        simp [hi, hlow, h39, Nat.le_of_not_lt hlow]
    rw [if_pos rfl, hext]
  | false =>
    simp only [Bool.false_eq_true, if_false]
    rcases h with hlt | hext
    · rw [h39] at hbit
      have hsmall : ¬ v.toNat / 2 ^ 39 % 2 = 1 := of_decide_eq_false hbit.symm
      rw [toInt_sext40, toInt_eq_toNat_cond]
      split <;> split <;> omega
    · rw [hext]

theorem accTest_getD {k : Nat} (hge : 2 ≤ k) (hle : k ≤ 7) (acc : Int) (d d' : Bool) :
    (accTest k acc).getD d = (accTest k acc).getD d' := by
  have hcases : k = 2 ∨ k = 3 ∨ k = 4 ∨ k = 5 ∨ k = 6 ∨ k = 7 := by omega
  rcases hcases with rfl | rfl | rfl | rfl | rfl | rfl <;> rfl

variable {s : Cpu}

theorem bcCond_acc (hge : 0x40 ≤ cc) (hlt : cc < 0x60) (htest : 2 ≤ (cc &&& 7).toNat)
    (c : Ctx) (hacc : Holds40 (s.acc (bitSet cc 3))) : bcCond cc c s = condTrue cc c s := by
  have hfields : ∀ n < 96, 64 ≤ n → bitSet (BitVec.ofNat 16 n : Word) 6 ∧
      (BitVec.ofNat 16 n : Word) &&& 0x70 ≠ 0x70 ∧ (BitVec.ofNat 16 n : Word) &&& 0x70 ≠ 0x60 := by
    decide
  have hcc := hfields cc.toNat hlt hge
  rw [ofNat_toNat, setWidth_eq] at hcc
  obtain ⟨h6, h70, h60⟩ := hcc
  have hle : (cc &&& 7).toNat ≤ 7 := by
    rw [toNat_and]
    exact Nat.and_le_right
  have hrange : ¬ (cc < 0x20 ∨ 0x60 ≤ cc) := by bv_omega
  have h40 : ¬ cc < 0x40 := by bv_omega
  simp only [bcCond, condTrue, run_get_bind, hrange, h40, low_ne_zero h6, h6, h70, h60,
    if_true, if_false, accSigned_eq hacc]
  rw [accTest_getD htest hle _ false true]

theorem cond_tc (hcc : cc = 0x20 ∨ cc = 0x30) (c : Ctx) (hstrict : tcStrict s) :
    bcCond cc c s = condTrue cc c s ∧ bcdCond cc c s = condTrue cc c s := by
  rcases hcc with rfl | rfl
  all_goals
    rw [condTrue_of_not_acc rfl]
    simp [bcCond, bcdCond, groups, run_get_bind, run_pure, hstrict]

theorem bcdCond_acc (h6 : bitSet cc 6) (c : Ctx) (s : Cpu) :
    bcdCond cc c s = condTrue cc c s := by
  have hgroup : ∀ v : Word, bitSet v 6 = false → (cc &&& 0xF0 == v) = false := by
    intro v hv
    rw [beq_eq_false_iff_ne]
    rintro rfl
    have hand : bitSet (cc &&& 0xF0) 6 = bitSet cc 6 := by simp [bitSet]
    rw [hand, h6] at hv
    exact absurd hv (by decide)
  simp only [bcdCond, run_get_bind, hgroup 0x20 rfl, hgroup 0x30 rfl, h6, if_true,
    Bool.or_false, Bool.false_and, Bool.false_eq_true, if_false]

/-- The instruction decides as `c54x_cond_true` does and leaves the flags as it does. -/
def Agrees (i : Conditional) (cc : Word) (c : Ctx) (s : Cpu) : Prop :=
  i.verdict cc c s = (condTrue cc c { s with lkUsed := false }).1 ∧
    (i.cond cc c { s with lkUsed := false }).2 = (condTrue cc c { s with lkUsed := false }).2

theorem agrees_of_eq {i : Conditional} (hcc : cc < 0x80) {c : Ctx}
    (h : i.cond cc c { s with lkUsed := false } = condTrue cc c { s with lkUsed := false }) :
    Agrees i cc c s := by
  refine ⟨?_, congrArg Prod.snd h⟩
  rw [verdict_eq i hcc, h]

/-- On which condition bytes the conditional instructions agree. -/
structure Agreement (cc : Word) (c : Ctx) (s : Cpu) : Prop where
  /-- grouped conditions are conjoined -/
  conjunction : bitSet cc 6 = false →
    (condTrue cc c s).1 = ((condTrue (cc &&& 0x30) c s).1 && (condTrue (cc &&& 0x0C) c s).1 &&
      (condTrue (cc &&& 0x03) c s).1)
  call : Agrees .cc cc c s ∧ Agrees .ccd cc c s
  branch_acc : 0x40 ≤ cc → cc < 0x60 → 2 ≤ (cc &&& 7).toNat → Holds40 (s.acc (bitSet cc 3)) →
    Agrees .bc cc c s
  branch_tc : tcStrict s = true → cc = 0x20 ∨ cc = 0x30 → Agrees .bc cc c s
  branchDelayed_acc : bitSet cc 6 = true → Agrees .bcd cc c s
  branchDelayed_tc : tcStrict s = true → cc = 0x20 ∨ cc = 0x30 → Agrees .bcd cc c s
  ret : cc ∈ singles → Agrees .rc cc c s ∧ Agrees .rcd cc c s
  /-- the overflow tests included, the verdict of a return is that of a call -/
  ret_verdict : bitSet cc 6 = true →
    verdict .rc cc c s = verdict .cc cc c s ∧ verdict .rcd cc c s = verdict .cc cc c s
  execute : cc ∈ singles ∨ cc = 0x68 ∨ cc = 0x78 → ∀ two, Agrees (.xc two) cc c s

theorem conditionals_agree {cc : Word} (hcc : cc < 0x80) (c : Ctx) (s : Cpu) :
    Agreement cc c s where
  conjunction h6 := condTrue_groups h6 c s
  call := ⟨agrees_of_eq hcc rfl, agrees_of_eq hcc rfl⟩
  branch_acc hge hlt htest hacc := agrees_of_eq hcc (bcCond_acc hge hlt htest c hacc)
  branch_tc hstrict h := agrees_of_eq hcc (And.left (cond_tc h c hstrict))
  branchDelayed_acc h6 := agrees_of_eq hcc (bcdCond_acc h6 c _)
  branchDelayed_tc hstrict h := agrees_of_eq hcc (And.right (cond_tc h c hstrict))
  ret hmem := by
    have heq := (singles_agree c { s with lkUsed := false } cc hmem).1
    exact ⟨agrees_of_eq hcc heq, agrees_of_eq hcc heq⟩
  ret_verdict h6 := by
    rw [verdict_eq .rc hcc, verdict_eq .rcd hcc, verdict_eq .cc hcc]
    exact ⟨retCond_acc h6 c _, retCond_acc h6 c _⟩
  execute hmem two := by
    apply agrees_of_eq hcc
    rcases hmem with hmem | rfl | rfl
    · exact (singles_agree c _ cc hmem).2
    · rfl
    · rfl

theorem conditionals_agree_aeq :
    (0x45 : Word) < 0x80 ∧ Agreement 0x45 ((boot []).ctx .quiet) (boot []).toCpu :=
  ⟨by decide, conditionals_agree (by decide) _ _⟩

/-- After reset TC is set; with 1 in A, CC on TC is taken and BC on TC is not. -/
theorem bc_reads_accumulator :
    verdict .cc 0x30 ((boot []).ctx .quiet) { (boot []).toCpu with a := 1 } = true ∧
    verdict .bc 0x30 ((boot []).ctx .quiet) { (boot []).toCpu with a := 1 } = false := by
  decide +kernel

end Conditional

end Qosmo.C54x
