import Qosmo.C54x.Condition
import Qosmo.C54x.Steps

/-!
# Qosmo.C54x.Overflow

The overflow flags between the instructions that raise them and those that test them.

NEG and ABS, and the overflow pass behind every instruction, raise OVA (bit 10 of ST0) and
OVB (bit 9). XC tests and clears these bits. `c54x_cond_true` and the returns take bit 8 for
OVA, which is the top bit of the data page: the verdict on A is then about DP, and
`c54x_cond_true` clears that bit of DP.
-/

namespace Qosmo.C54x

open BitVec Prog State

/-! ### Conditions and the flags they name -/

/-- The condition bytes of an instruction. With bit 7 set CC, CCD and BCD are far transfers
without a condition; BC has no overflow tests, their opcodes are decoded as BANZ. -/
def Conditional.takes (i : Conditional) (byte : Word) : Prop :=
  match i with
  | .bc => False
  | .bcd | .cc | .ccd => byte < 0x80
  | .rc | .rcd | .xc _ => byte < 0x100

/-- AOV and ANOV, BOV and BNOV: the condition byte of an overflow test. -/
def overflowByte : (isB negated : Bool) → Word
  | false, false => 0x70
  | false, true => 0x60
  | true, false => 0x78
  | true, true => 0x68

/-- The evaluation leaves the data page alone, and an overflow test decides by the flag. -/
def EvaluatesSoundly (i : Conditional) (cc : Word) (c : Ctx) (s : Cpu) : Prop :=
  (i.cond cc c { s with lkUsed := false }).2.dp = s.dp ∧
    ∀ isB negated, cc = overflowByte isB negated →
      i.verdict cc c s = (bitSet s.st0 (ovBit isB) != negated)

/-- Bit 8 of ST0 stands for OVA without harm: the returns only read it, the others clear it
as well. -/
def OvaSafe (i : Conditional) (cc : Word) (st0 : Word) : Prop :=
  match i with
  | .rc | .rcd => cc = 0x70 ∨ cc = 0x60 → bitSet st0 8 = bitSet st0 St0.ova
  | .cc | .ccd | .bcd =>
    ((cc &&& 0x70 = 0x70 ∨ cc &&& 0x70 = 0x60) ∧ bitSet cc 3 = false → bitSet st0 8 = false) ∧
      (cc = 0x70 ∨ cc = 0x60 → bitSet st0 8 = bitSet st0 St0.ova)
  | _ => True

/-! ### One evaluation -/

theorem getLsbD_clearBit (r : Word) (n k : Nat) :
    (clearBit r n).getLsbD k = (r.getLsbD k && decide (k ≠ n)) := by
  rw [clearBit, getLsbD_and]
  by_cases hk : k < 16
  · by_cases heq : k = n
    · subst heq
      simp [hk]
    · have hne : n ≠ k := fun h => heq h.symm
      rw [getLsbD_not, getLsbD_twoPow]
      simp [hk, heq, hne]
  · rw [getLsbD_of_ge r k (Nat.le_of_not_lt hk), Bool.false_and, Bool.false_and]

theorem dp_clearBit_of_ge {n : Nat} (hn : 9 ≤ n) (r : Word) :
    clearBit r n &&& St0.dpMask = r &&& St0.dpMask := by
  have hmask : ∀ k < 16, St0.dpMask.getLsbD k = decide (k < 9) := by decide
  apply eq_of_getLsbD_eq
  intro k hk
  rw [getLsbD_and, getLsbD_and, getLsbD_clearBit, hmask k hk]
  by_cases h9 : k < 9
  · have hne : k ≠ n := by omega
    rw [decide_eq_true hne, Bool.and_true]
  · rw [decide_eq_false h9, Bool.and_false, Bool.and_false]

/-- Bit 8 is part of the page: clearing it is harmless only when it is clear. -/
theorem dp_clearBit_8 (r : Word) :
    clearBit r 8 &&& St0.dpMask = r &&& St0.dpMask ↔ bitSet r 8 = false := by
  constructor
  · intro h
    have h8 := congrArg (·.getLsbD 8) h
    simp only [getLsbD_and, getLsbD_clearBit] at h8
    simpa [St0.dpMask, bitSet] using h8.symm
  · intro h
    have hsame : clearBit r 8 = r := by
      apply eq_of_getLsbD_eq
      intro k _
      rw [getLsbD_clearBit]
      by_cases h8 : k = 8
      · subst h8
        exact (Bool.and_false _).trans h.symm
      · rw [decide_eq_true h8, Bool.and_true]
    rw [hsame]

variable {s : Cpu}

/-- An evaluator that takes bits 9 and 8 for the flags reads OVB, and reads OVA exactly when
bit 8 happens to equal it. -/
theorem reads_flag_iff {ev : Word → Exec Bool} {c : Ctx}
    (hev : ∀ isB negated, (ev (overflowByte isB negated) c s).1 =
      (bitSet s.st0 (if isB then 9 else 8) != negated)) (cc : Word) :
    (∀ isB negated, cc = overflowByte isB negated →
        (ev cc c s).1 = (bitSet s.st0 (ovBit isB) != negated)) ↔
      (cc = 0x70 ∨ cc = 0x60 → bitSet s.st0 8 = bitSet s.st0 St0.ova) := by
  constructor
  · rintro h (rfl | rfl)
    · have h8 := (hev false false).symm.trans (h false false rfl)
      simpa [ovBit] using h8
    · have h8 := (hev false true).symm.trans (h false true rfl)
      simpa [ovBit] using h8
  · rintro h isB negated rfl
    rw [hev]
    cases isB with
    | true => rfl
    | false =>
      have h8 : bitSet s.st0 8 = bitSet s.st0 St0.ova := by
        cases negated with
        | false => exact h (.inl rfl)
        | true => exact h (.inr rfl)
      exact congrArg (· != negated) h8

/-- An evaluator that clears what it tests, bit 9 or bit 8, keeps the data page exactly when
it does not clear a set bit 8. -/
theorem keeps_dp_iff {cc : Word} {s' : Cpu}
    (hs' : s' = if cc &&& 0x70 = 0x70 ∨ cc &&& 0x70 = 0x60 then
      { s with st0 := clearBit s.st0 (if bitSet cc 3 then 9 else 8) } else s) :
    s'.dp = s.dp ↔ ((cc &&& 0x70 = 0x70 ∨ cc &&& 0x70 = 0x60) ∧ bitSet cc 3 = false →
      bitSet s.st0 8 = false) := by
  subst hs'
  by_cases hov : cc &&& 0x70 = 0x70 ∨ cc &&& 0x70 = 0x60
  · rw [if_pos hov]
    cases h3 : bitSet cc 3 with
    | true =>
      have hdp : clearBit s.st0 9 &&& St0.dpMask = s.st0 &&& St0.dpMask :=
        dp_clearBit_of_ge (by omega) _
      simpa [Cpu.dp] using hdp
    | false =>
      simp only [hov, Bool.false_eq_true, if_false, true_and, true_imp_iff]
      exact dp_clearBit_8 s.st0
  · rw [if_neg hov]
    exact ⟨fun _ h => absurd h.1 hov, fun _ => rfl⟩

theorem condTrue_overflow (c : Ctx) (s : Cpu) (isB negated : Bool) :
    (condTrue (overflowByte isB negated) c s).1 =
      (bitSet s.st0 (if isB then 9 else 8) != negated) := by
  cases isB <;> cases negated <;> simp [overflowByte, condTrue, run_get_bind] <;> rfl

theorem bcdCond_state (cc : Word) (c : Ctx) (s : Cpu) :
    (Conditional.bcdCond cc c s).2 =
      if cc &&& 0x70 = 0x70 ∨ cc &&& 0x70 = 0x60 then
        { s with st0 := clearBit s.st0 (if bitSet cc 3 then 9 else 8) }
      else s := by
  cases h6 : bitSet cc 6 with
  | true => rw [Conditional.bcdCond_acc h6, condTrue_state]
  | false =>
    rw [if_neg fun h => by simp [bit6_of_overflow h] at h6]
    simp only [Conditional.bcdCond, run_get_bind, h6]
    split <;> rfl

theorem dp_xcCond (cc : Word) (c : Ctx) (s : Cpu) : (xcCond cc c s).2.dp = s.dp := by
  -- XC clears OVA or OVB, both above the data page
  rw [xcCond_state]
  split
  · exact dp_clearBit_of_ge (by decide) _
  · split
    · exact dp_clearBit_of_ge (by decide) _
    · rfl

theorem xcCond_overflow (c : Ctx) (s : Cpu) (isB negated : Bool) :
    (xcCond (overflowByte isB negated) c s).1 = (bitSet s.st0 (ovBit isB) != negated) := by
  cases isB <;> cases negated <;> simp [overflowByte, xcCond, ovBit, run_get_bind] <;> rfl

theorem cond_sound_iff {i : Conditional} (hi : i ≠ .bc) (cc : Word) (c : Ctx) (s : Cpu) :
    ((i.cond cc c s).2.dp = s.dp ∧ ∀ isB negated, cc = overflowByte isB negated →
      (i.cond cc c s).1 = (bitSet s.st0 (ovBit isB) != negated)) ↔ OvaSafe i cc s.st0 := by
  have hacc : ∀ isB negated, bitSet (overflowByte isB negated) 6 := by decide
  have hret : ∀ isB negated, (retCond (overflowByte isB negated) c s).1 =
      (bitSet s.st0 (if isB then 9 else 8) != negated) := by
    intro isB negated
    rw [retCond_acc (hacc isB negated), condTrue_overflow]
  have hbcd : ∀ isB negated, (Conditional.bcdCond (overflowByte isB negated) c s).1 =
      (bitSet s.st0 (if isB then 9 else 8) != negated) := by
    intro isB negated
    rw [Conditional.bcdCond_acc (hacc isB negated), condTrue_overflow]
  cases i with
  | bc => exact absurd rfl hi
  | cc | ccd =>
    exact and_congr (keeps_dp_iff (condTrue_state cc c s))
      (reads_flag_iff (condTrue_overflow c s) cc)
  | bcd => exact and_congr (keeps_dp_iff (bcdCond_state cc c s)) (reads_flag_iff hbcd cc)
  | rc | rcd =>
    have hdp : (retCond cc c s).2.dp = s.dp := congrArg Cpu.dp (retCond_state cc c s)
    exact (and_iff_right hdp).trans (reads_flag_iff hret cc)
  | xc two =>
    refine iff_of_true ⟨dp_xcCond cc c s, ?_⟩ trivial
    rintro isB negated rfl
    exact xcCond_overflow c s isB negated

/-- The code evaluates soundly exactly where bit 8 stands for OVA without harm. -/
theorem evaluatesSoundly_iff {i : Conditional} {cc : Word} (hi : i.takes cc) (c : Ctx) (s : Cpu) :
    EvaluatesSoundly i cc c s ↔ OvaSafe i cc s.st0 := by
  have hne : i ≠ .bc := by
    rintro rfl
    exact hi
  have hlt : ∀ isB negated, overflowByte isB negated < 0x80 := by decide
  rw [← cond_sound_iff hne cc c { s with lkUsed := false }]
  refine and_congr_right fun _ => forall_congr' fun isB => forall_congr' fun negated => ?_
  refine imp_congr_right ?_
  rintro rfl
  rw [Conditional.verdict_eq i (hlt isB negated)]

/-! ### The instructions that raise the flags -/

def lmsResults (op : Word) (s : Cpu) : Acc × Acc :=
  let x := dataRead s (s.ar (xAr op))
  let y := dataRead s (s.ar (yAr op))
  (sext40 (s.a + (sxm s x <<< 16) + 0x8000), sext40 (s.b + frct s (mul16 x y)))

theorem lmsResults_lkUsed (op : Word) (s : Cpu) :
    lmsResults op { s with lkUsed := false } = lmsResults op s := by
  have hread : ∀ addr, dataRead { s with lkUsed := false } addr = dataRead s addr := fun _ => rfl
  simp only [lmsResults, hread]
  rfl

/-- The results an instruction compares with 32 bits itself: NEG and ABS unless C16 is set,
SAT and LMS. -/
def checkedResults (op : Word) (s : Cpu) : List (Bool × Acc) :=
  let val := sext40 (s.acc (srcB op))
  if op &&& 0xFCFF = 0xF484 then
    if bitSet s.st1 St1.c16 then [] else [(dstB op, -val)]
  else if op &&& 0xFCFF = 0xF485 then
    if bitSet s.st1 St1.c16 then [] else [(dstB op, if val.toInt < 0 then -val else val)]
  else if op &&& 0xFEFF = 0xF483 then [(dstB op, sext40 (s.acc (dstB op)))]
  else if op &&& 0xFF00 = 0xE100 then
    [(false, (lmsResults op s).1), (true, (lmsResults op s).2)]
  else []

theorem ovBit_lt (isB : Bool) : ovBit isB < 16 := by cases isB <;> decide

theorem st0_setAcc (isB : Bool) (v : Acc) (c : Ctx) (s : Cpu) :
    (setAcc isB v c s).2.st0 = s.st0 := by
  cases isB <;> rfl

theorem st0_done (n : Nat) (c : Ctx) (s : Cpu) : (done n c s).2.st0 = s.st0 := rfl

theorem st0_putSt0_true (n : Nat) (c : Ctx) (s : Cpu) :
    (putSt0 n true c s).2.st0 = setBit s.st0 n := rfl

variable {r : Acc}

theorem raises_negAbsOvf (isB : Bool) (c : Ctx)
    (hc16 : bitSet s.st1 St1.c16 = false) (hr : r ≠ sat32 r) :
    bitSet (negAbsOvf isB r c s).2.st0 (ovBit isB) := by
  have hflag : bitSet (setBit s.st0 (ovBit isB)) (ovBit isB) :=
    bitSet_setBit_self _ _ (ovBit_lt isB)
  simp only [negAbsOvf, run_get_bind]
  simp only [hc16, hr, ne_eq, not_false_iff, decide_true,
    Bool.not_false, Bool.and_self, if_true]
  cases bitSet s.st1 St1.ovm with
  | true =>
    simp only [if_true, run_bind, st0_setAcc, st0_putSt0_true]
    exact hflag
  | false =>
    simp only [Bool.false_eq_true, if_false, run_bind, run_pure, st0_setAcc,
      st0_putSt0_true]
    exact hflag

variable {op : Word}

theorem raises_execSat (c : Ctx)
    (hr : sext40 (s.acc (dstB op)) ≠ sat32 (sext40 (s.acc (dstB op)))) :
    bitSet (execSat op c s).2.st0 (ovBit (dstB op)) := by
  simp only [execSat, run_get_bind]
  rw [if_neg hr]
  simp only [run_bind, st0_done, st0_setAcc, st0_putSt0_true]
  exact bitSet_setBit_self _ _ (ovBit_lt _)

theorem bitSet_setBit_of_bitSet {r : Word} {n : Nat} (m : Nat) (h : bitSet r n) :
    bitSet (setBit r m) n := by
  simp only [bitSet] at h
  rw [bitSet, setBit, getLsbD_or, h, Bool.true_or]

theorem st0_postXY (op : Word) (c : Ctx) (s : Cpu) : (postXY op c s).2.st0 = s.st0 := by
  have hpost : ∀ n mod t, (parPostmod n mod c t).2.st0 = t.st0 := by
    intro n mod t
    simp only [parPostmod, run_modify]
    split <;> rfl
  rw [postXY, run_bind, hpost, hpost]

theorem st0_execLms (op : Word) (c : Ctx) (s : Cpu) : (execLms op c s).2.st0 =
    if (lmsResults op s).1 ≠ sat32 (lmsResults op s).1 then
      if (lmsResults op s).2 ≠ sat32 (lmsResults op s).2 then
        setBit (setBit s.st0 St0.ova) St0.ovb
      else setBit s.st0 St0.ova
    else if (lmsResults op s).2 ≠ sat32 (lmsResults op s).2 then setBit s.st0 St0.ovb
    else s.st0 := by
  have hread : readXY op c s = ((dataRead s (s.ar (xAr op)), dataRead s (s.ar (yAr op))), s) := rfl
  rw [execLms, run_bind, hread]
  dsimp only
  rw [run_get_bind]
  simp only [run_ite, run_bind, apply_ite Prod.snd, apply_ite Cpu.st0, st0_done,
    st0_postXY, st0_setAcc, st0_putSt0_true]
  rfl

variable {isB : Bool}

theorem raises_execLms (c : Ctx)
    (h : (isB, r) ∈ [(false, (lmsResults op s).1), (true, (lmsResults op s).2)])
    (hr : r ≠ sat32 r) : bitSet (execLms op c s).2.st0 (ovBit isB) := by
  have hova : bitSet (setBit s.st0 St0.ova) St0.ova := bitSet_setBit_self _ _ (by decide)
  rw [List.mem_pair, Prod.mk.injEq, Prod.mk.injEq] at h
  rw [st0_execLms]
  rcases h with ⟨rfl, rfl⟩ | ⟨rfl, rfl⟩
  · rw [if_pos hr]
    split
    · exact bitSet_setBit_of_bitSet _ hova
    · exact hova
  · rw [if_pos hr, if_pos hr]
    split <;> exact bitSet_setBit_self _ _ (by decide)

theorem acc_lkUsed (s : Cpu) (lkUsed isB : Bool) :
    ({ s with lkUsed := lkUsed } : Cpu).acc isB = s.acc isB := by
  cases isB <;> rfl

theorem execNeg_snd (op : Word) (c : Ctx) (s : Cpu) : (execNeg op c s).2 =
    (negAbsOvf (dstB op) (-sext40 (s.acc (srcB op))) c s).2 := rfl

theorem execAbs_snd (op : Word) (c : Ctx) (s : Cpu) : (execAbs op c s).2 =
    (negAbsOvf (dstB op) (if (sext40 (s.acc (srcB op))).toInt < 0 then -sext40 (s.acc (srcB op))
      else sext40 (s.acc (srcB op))) c s).2 := rfl

/-- NEG and ABS check their result unless C16 is set. -/
theorem flag_of_negAbs {v : Acc} {f : Word → Exec Nat} (hact : decode op = .plain f)
    (hf : ∀ c, (f op c { s with lkUsed := false }).2 =
      (negAbsOvf (dstB op) v c { s with lkUsed := false }).2)
    (h : (isB, r) ∈ if bitSet s.st1 St1.c16 then [] else [(dstB op, v)]) (hr : r ≠ sat32 r)
    (c : Ctx) : bitSet (execOp op c s).2.st0 (ovBit isB) := by
  cases hc16 : bitSet s.st1 St1.c16 with
  | true => simp [hc16] at h
  | false =>
    rw [hc16, if_neg Bool.false_ne_true, List.mem_singleton, Prod.mk.injEq] at h
    obtain ⟨rfl, rfl⟩ := h
    rw [execOp_of_decode hact, run_plain, hf]
    exact raises_negAbsOvf _ c hc16 hr

/-- Where an instruction finds that a result does not fit in 32 bits it raises the flag. -/
theorem flag_of_checked
    (h : (isB, r) ∈ checkedResults op s) (hr : r ≠ sat32 r) (c : Ctx) :
    bitSet (execOp op c s).2.st0 (ovBit isB) := by
  unfold checkedResults at h
  dsimp only at h
  split at h
  next hop =>
    have hact : decode op = .plain execNeg := decode_of_first hop rfl rfl
    exact flag_of_negAbs hact (fun c => by rw [execNeg_snd, acc_lkUsed]) h hr c
  split at h
  next hop =>
    have hact : decode op = .plain execAbs := decode_of_first hop rfl rfl
    exact flag_of_negAbs hact (fun c => by rw [execAbs_snd, acc_lkUsed]) h hr c
  split at h
  next hop =>
    have hact : decode op = .plain execSat := decode_of_first hop rfl rfl
    rw [List.mem_singleton, Prod.mk.injEq] at h
    obtain ⟨rfl, rfl⟩ := h
    rw [execOp_of_decode hact, run_plain]
    exact raises_execSat c hr
  split at h
  next hop =>
    have hact : decode op = .plain execLms := decode_of_first hop rfl rfl
    rw [execOp_of_decode hact, run_plain]
    rw [← lmsResults_lkUsed] at h
    generalize { s with lkUsed := false } = t at h ⊢
    dsimp only
    exact raises_execLms c h hr
  cases h

/-! ### The overflow pass -/

/-- The pass finds that the instruction left a number of more than 32 bits in an
accumulator. -/
def Overflows (before s : Cpu) (isB : Bool) : Prop :=
  bitSet s.st1 St1.c16 = false ∧ s.acc isB ≠ before.acc isB ∧
    sext40 (s.acc isB) ≠ sat32 (sext40 (s.acc isB))

theorem st0_overflowAcc (isB : Bool) (before : Acc) (s : Cpu) :
    (overflowAcc isB before s).st0 =
      if s.acc isB = before ∨ sext40 (s.acc isB) = sat32 (sext40 (s.acc isB)) then s.st0
      else setBit s.st0 (ovBit isB) := by
  unfold overflowAcc
  dsimp only
  split
  · rfl
  · split
    · cases isB <;> rfl
    · rfl

theorem st0_overflowPass (before s : Cpu) (hc16 : bitSet s.st1 St1.c16 = false) :
    (overflowPass before s).st0 =
      if s.acc true = before.acc true ∨ sext40 (s.acc true) = sat32 (sext40 (s.acc true)) then
        (overflowAcc false (before.acc false) s).st0
      else setBit (overflowAcc false (before.acc false) s).st0 St0.ovb := by
  have hb := (overflowAcc_frame false before.a s).1
  rw [overflowPass, hc16, if_neg Bool.false_ne_true, st0_overflowAcc]
  simp only [Bool.not_false] at hb
  rw [hb]
  rfl

/-- The pass raises the flag of an accumulator that overflowed. -/
theorem flag_of_overflows {before : Cpu} (h : Overflows before s isB) :
    bitSet (overflowPass before s).st0 (ovBit isB) := by
  obtain ⟨hc16, hne, hsat⟩ := h
  rw [st0_overflowPass before s hc16]
  cases isB with
  | true =>
    rw [if_neg (not_or.mpr ⟨hne, hsat⟩)]
    exact bitSet_setBit_self _ _ (by decide)
  | false =>
    have hova : bitSet (overflowAcc false (before.acc false) s).st0 St0.ova := by
      rw [st0_overflowAcc, if_neg (not_or.mpr ⟨hne, hsat⟩)]
      exact bitSet_setBit_self _ _ (by decide)
    split
    · exact hova
    · exact bitSet_setBit_of_bitSet _ hova

theorem flag_overflowPass {before : Cpu} {n : Nat} (h : bitSet s.st0 n) :
    bitSet (overflowPass before s).st0 n := by
  cases hc16 : bitSet s.st1 St1.c16 with
  | true => rwa [overflowPass, hc16, if_pos rfl]
  | false =>
    have hfirst : bitSet (overflowAcc false (before.acc false) s).st0 n := by
      rw [st0_overflowAcc]
      split
      · exact h
      · exact bitSet_setBit_of_bitSet _ h
    rw [st0_overflowPass before s hc16]
    split
    · exact hfirst
    · exact bitSet_setBit_of_bitSet _ hfirst

/-! ### Runs -/

/-- A turn whose instruction is decoded in `u`: its condition, if it has one, is evaluated
soundly, and a result of more than 32 bits leaves the flag of its accumulator set. -/
structure SoundInstruction (g : Gates) (bus : Bus) (s u : State) : Prop where
  evaluates : ∀ i cc, i.takes cc → opAt u = i.opcode cc →
    EvaluatesSoundly i cc (u.ctx bus) u.toCpu
  checked : ∀ isB r, (isB, r) ∈ checkedResults (opAt u) u.toCpu → r ≠ sat32 r →
    bitSet (execSettled g bus (prepare (replay bus s).1)).1.st0 (ovBit isB) = true
  overflows : ∀ isB, Overflows u.toCpu (execOp (opAt u) (u.ctx bus) u.toCpu).2 isB →
    bitSet (execSettled g bus (prepare (replay bus s).1)).1.st0 (ovBit isB) = true

/-- The overflow flags work as documented in this event. -/
def FlagsSound (g : Gates) (s : State) : Event → Prop
  | .pass bus => ∀ u, decoding g bus s = some u → SoundInstruction g bus s u
  | _ => True

/-- No condition of this event takes bit 8 for OVA to any effect. -/
def FlagsSafe (g : Gates) (s : State) : Event → Prop
  | .pass bus => ∀ u, decoding g bus s = some u →
    ∀ i cc, i.takes cc → opAt u = i.opcode cc → OvaSafe i cc u.st0
  | _ => True

theorem flagsSound_iff (g : Gates) (s : State) (e : Event) :
    FlagsSound g s e ↔ FlagsSafe g s e := by
  cases e with
  | pass bus =>
    refine forall_congr' fun u => imp_congr_right fun hu => ?_
    have hsettled := toCpu_execSettled (decoding_eq_some hu).2
    constructor
    · intro h i cc hi hop
      exact (evaluatesSoundly_iff hi _ _).mp (h.evaluates i cc hi hop)
    · intro h
      refine ⟨fun i cc hi hop => ?_, fun isB r hr hsat => ?_, fun isB hov => ?_⟩
      · exact (evaluatesSoundly_iff hi _ _).mpr (h i cc hi hop)
      · rw [hsettled]
        exact flag_overflowPass (flag_of_checked hr hsat _)
      · rw [hsettled]
        exact flag_of_overflows hov
  | request bus vec bit | wake | poke addr v | reset regs => exact Iff.rfl

theorem overflow_conditions_iff (g : Gates) (s : State) (es : List Event) :
    (core g).Along (FlagsSound g) s es ↔ (core g).Along (FlagsSafe g) s es :=
  ⟨fun h => h.mono fun t e => (flagsSound_iff g t e).mp,
    fun h => h.mono fun t e => (flagsSound_iff g t e).mpr⟩

/-- LD #0x4000, 16, A; SFTA A, 1; CC 0x1234, AOV: the shift overflows. -/
def shiftAndCall : List Word := [0xF062, 0x4000, 0xF461, 0xF970, 0x1234]

/-- SSBX of bit 8 of ST0, then CC 0x1234, AOV: nothing overflows. -/
def pageAndCall : List Word := [0xF5B8, 0xF970, 0x1234]

/-- With OVA set the call on AOV is not taken; with OVA clear it is taken where the data page
is high, and the data page is moved. -/
theorem aov_tests_data_page :
    (bitSet ((core ⟨false⟩).final (boot shiftAndCall) (List.replicate 2 (.pass .quiet))).st0
        St0.ova = true ∧
      ((core ⟨false⟩).final (boot shiftAndCall) (List.replicate 3 (.pass .quiet))).pc = 0xFF85) ∧
    (((core ⟨false⟩).final (boot pageAndCall) [.pass .quiet]).st0 = 0x191F ∧
      ((core ⟨false⟩).final (boot pageAndCall) [.pass .quiet, .pass .quiet]).pc = 0x1234 ∧
      ((core ⟨false⟩).final (boot pageAndCall) [.pass .quiet, .pass .quiet]).st0 = 0x181F) := by
  decide +kernel

end Qosmo.C54x
