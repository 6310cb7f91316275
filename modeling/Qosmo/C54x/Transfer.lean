import Qosmo.C54x.Condition
import Qosmo.C54x.Frame

/-!
# Qosmo.C54x.Transfer

What the delayed branches, calls and returns leave for the fetch of the words behind them.

The near forms leave the page alone. The far forms (FBD, FCALLD, FBACCD, FCALAD, FRETD,
FRETED) load XPC at once with the page of the target, although their two delay-slot words
have still to be fetched. `moves_of_delayed` says so for every opcode that arms a transfer.
-/

namespace Qosmo.C54x

open State Prog

/-! ### Places in program memory -/

/-- Where a program word is fetched from: the data memory behind the overlay, or the program
memory. -/
inductive Place where
  | overlay (addr : Word)
  | program (addr : BitVec 18)
  deriving DecidableEq, Repr

/-- The place of a program address. -/
def placeAt (s : Cpu) (addr : Word) : Place :=
  if inOverlay s addr then .overlay addr else .program (progXlate s addr)

def Place.word (s : Cpu) : Place → Word
  | .overlay addr => s.data addr
  | .program addr => s.prog addr

theorem progFetch_eq (s : Cpu) (addr : Word) : progFetch s addr = (placeAt s addr).word s := by
  unfold progFetch placeAt
  split <;> rfl

variable {s : Cpu}

theorem placeAt_congr {s' : Cpu} (hxpc : s'.xpc = s.xpc) (hpmst : s'.pmst = s.pmst)
    (addr : Word) : placeAt s' addr = placeAt s addr := by
  unfold placeAt inOverlay progXlate
  rw [hxpc, hpmst]

/-! ### What a delayed transfer leaves -/

def targetPage (op : Word) (s : Cpu) : Word :=
  if op &&& 0xFF80 = 0xFA80 ∨ op &&& 0xFF80 = 0xFB80 then op &&& 3
  else if op &&& 0xFEFE = 0xF6E6 then pageOf (s.acc (dstB op))
  else if op &&& 0xFFFE = 0xF6E4 then dataRead s s.sp &&& 3
  else s.xpc

/-- The two words a call can push do not go to registers. -/
def PushesToMemory (s : Cpu) : Prop := 0x20 ≤ s.sp - 1 ∧ 0x20 ≤ s.sp - 1 - 1

instance (s : Cpu) : Decidable (PushesToMemory s) := inferInstanceAs (Decidable (_ ∧ _))

/-- What a delayed transfer does to the registers that the fetch and the block repeat read. -/
structure Moves (op : Word) (s s' : Cpu) : Prop where
  xpc : s'.xpc = targetPage op s
  pmst : s'.pmst = s.pmst
  rea : s'.rea = s.rea

variable {op mask value : Word}

/-- An opcode cannot have two values under masks that meet. -/
theorem ne_of_mask {mask' value' : Word} (hop : op &&& mask = value)
    (h : value &&& mask' ≠ value' &&& mask) : op &&& mask' ≠ value' := by
  intro hop'
  apply h
  rw [← hop, ← hop', BitVec.and_assoc, BitVec.and_assoc, BitVec.and_comm mask]

/-- None of the far forms has the value under the mask. -/
def Near (mask value : Word) : Prop :=
  value &&& 0xFF80 ≠ 0xFA80 &&& mask ∧ value &&& 0xFF80 ≠ 0xFB80 &&& mask ∧
    value &&& 0xFEFE ≠ 0xF6E6 &&& mask ∧ value &&& 0xFFFE ≠ 0xF6E4 &&& mask

instance (mask value : Word) : Decidable (Near mask value) := inferInstanceAs (Decidable (_ ∧ _))

/-- The registers that the fetch and the block repeat read are as they were. -/
structure FetchKept (s s' : Cpu) : Prop where
  xpc : s'.xpc = s.xpc
  pmst : s'.pmst = s.pmst
  rea : s'.rea = s.rea

theorem FetchKept.trans {s' s'' : Cpu} (h : FetchKept s s') (h' : FetchKept s' s'') :
    FetchKept s s'' :=
  ⟨h'.xpc.trans h.xpc, h'.pmst.trans h.pmst, h'.rea.trans h.rea⟩

theorem fetchKept_push (h : 0x20 ≤ s.sp - 1) (v : Word) (c : Ctx) :
    FetchKept s (push v c s).2 ∧ (push v c s).2.sp = s.sp - 1 := by
  obtain ⟨data, ram, psc, served, heq⟩ := dataWrite_of_ge (s := { s with sp := s.sp - 1 }) h
  have hpush : (push v c s).2 = _ := heq
  rw [hpush]
  exact ⟨⟨rfl, rfl, rfl⟩, rfl⟩

theorem fetchKept_farPush (h : PushesToMemory s) (v : Word) (c : Ctx) :
    FetchKept s (farPush v c s).2 := by
  obtain ⟨hkept, hsp⟩ := fetchKept_push h.1 v c
  have hnext : 0x20 ≤ (push v c s).2.sp - 1 := by
    rw [hsp]
    exact h.2
  exact hkept.trans (fetchKept_push hnext _ c).1

theorem condTrue_eq (cc : Word) (c : Ctx) (s : Cpu) :
    ∃ st0, (condTrue cc c s).2 = { s with st0 := st0 } := by
  rw [condTrue_state]
  split
  · exact ⟨_, rfl⟩
  · exact ⟨s.st0, rfl⟩

theorem resolveSmem_eq (op : Word) (c : Ctx) (s : Cpu) :
    ∃ ar st0 lk, (resolveSmem op c s).2 = { s with ar := ar, st0 := st0, lkUsed := lk } := by
  simp only [resolveSmem, run_get_bind]
  split
  · simp only [run_bind]
    split
    · exact ⟨_, _, _, rfl⟩
    · exact ⟨_, s.st0, _, rfl⟩
  · exact ⟨s.ar, s.st0, s.lkUsed, rfl⟩

theorem moves_near {s' : Cpu} (hop : op &&& mask = value) (hnear : Near mask value)
    (h : FetchKept s s') : Moves op s s' := by
  obtain ⟨hfbd, hfcalld, hfbaccd, hfretd⟩ := hnear
  have hbd := ne_of_mask hop hfbd
  have hcalld := ne_of_mask hop hfcalld
  refine ⟨?_, h.pmst, h.rea⟩
  unfold targetPage
  rw [h.xpc, if_neg fun h => h.elim hbd hcalld, if_neg (ne_of_mask hop hfbaccd),
    if_neg (ne_of_mask hop hfretd)]

theorem moves_far {s' : Cpu} {page : Word} (hpage : targetPage op s = page) (h : FetchKept s s') :
    Moves op s { s' with xpc := page } :=
  ⟨hpage.symm, h.pmst, h.rea⟩

/-- The instruction at `op` arms a transfer only with the effects above. -/
def ArmsSoundly (op : Word) : Action → Prop
  | .control f => ∀ c s tgt n, (f op c s).1 = .delayed tgt n → PushesToMemory s →
      Moves op s (f op c s).2
  | _ => True

theorem armsSoundly_plain (op : Word) (f : Word → Exec Nat) : ArmsSoundly op (.plain f) := trivial

/-- Not the end of a delayed transfer. -/
def Direct (f : Flow) : Prop := ∀ tgt n, f ≠ .delayed tgt n

theorem armsSoundly_of_direct {f : Word → Exec Flow}
    (h : Yields Direct (f op)) : ArmsSoundly op (.control f) :=
  fun c s tgt n harm _ => absurd harm (h c s tgt n)

theorem arms_bd (hop : op &&& 0xFFFF = 0xF273) : ArmsSoundly op (.control execBd) :=
  fun _ _ _ _ _ _ => moves_near hop (by decide) ⟨rfl, rfl, rfl⟩

theorem arms_calld (hop : op &&& 0xFFFF = 0xF274) : ArmsSoundly op (.control execCalld) :=
  fun c _ _ _ _ hpush => moves_near hop (by decide) (fetchKept_push hpush.1 _ c).1

theorem arms_reted (hnear : Near mask value) (hop : op &&& mask = value) :
    ArmsSoundly op (.control execReted) :=
  fun _ _ _ _ _ _ => moves_near hop hnear ⟨rfl, rfl, rfl⟩

theorem arms_baccd (hop : op &&& 0xFEFE = 0xF6E2) : ArmsSoundly op (.control execBaccd) := by
  intro c s tgt n _ hpush
  refine moves_near hop (by decide) ?_
  cases hcall : bitSet op 0 with
  | true =>
    simp only [execBaccd, hcall, if_true]
    exact (fetchKept_push hpush.1 _ c).1
  | false =>
    simp only [execBaccd, hcall, Bool.false_eq_true, if_false]
    exact ⟨rfl, rfl, rfl⟩

theorem targetPage_accumulator (hop : op &&& 0xFEFE = 0xF6E6) (s : Cpu) :
    targetPage op s = pageOf (s.acc (dstB op)) := by
  have hbd : op &&& 0xFF80 ≠ 0xFA80 := ne_of_mask hop (by decide)
  have hcalld : op &&& 0xFF80 ≠ 0xFB80 := ne_of_mask hop (by decide)
  unfold targetPage
  rw [if_neg fun h => h.elim hbd hcalld, if_pos hop]

theorem targetPage_stack (hop : op &&& 0xFFFE = 0xF6E4) (s : Cpu) :
    targetPage op s = dataRead s s.sp &&& 3 := by
  have hbd : op &&& 0xFF80 ≠ 0xFA80 := ne_of_mask hop (by decide)
  have hcalld : op &&& 0xFF80 ≠ 0xFB80 := ne_of_mask hop (by decide)
  unfold targetPage
  rw [if_neg fun h => h.elim hbd hcalld, if_neg (ne_of_mask hop (by decide)), if_pos hop]

theorem arms_fretd (hop : op &&& 0xFFFE = 0xF6E4) : ArmsSoundly op (.control execFretd) := by
  intro c s tgt n _ _
  cases hintm : bitSet op 0 <;>
    simp only [execFretd, hintm, if_true, Bool.false_eq_true, if_false] <;>
    exact ⟨(targetPage_stack hop s).symm, rfl, rfl⟩

theorem arms_fbaccd (hop : op &&& 0xFEFE = 0xF6E6) : ArmsSoundly op (.control execFbaccd) := by
  intro c s tgt n _ hpush
  cases hcall : bitSet op 0 with
  | true =>
    simp only [execFbaccd, hcall, if_true]
    exact moves_far (targetPage_accumulator hop s) (fetchKept_farPush hpush _ c)
  | false =>
    simp only [execFbaccd, hcall, Bool.false_eq_true, if_false]
    exact moves_far (targetPage_accumulator hop s) ⟨rfl, rfl, rfl⟩

theorem arms_rcd (hop : op &&& 0xFF00 = 0xFE00) : ArmsSoundly op (.control execRcd) := by
  intro c s tgt n _ _
  have hcond := retCond_state (op &&& 0xFF) c s
  simp only [execRcd, run_bind, hcond]
  cases (retCond (op &&& 0xFF) c s).1 <;> exact moves_near hop (by decide) ⟨rfl, rfl, rfl⟩

/-- Bit 7 tells the far forms of 0xFA and 0xFB from the near ones. -/
theorem and_FF80 (op : Word) : op &&& 0xFF80 =
    (op &&& 0xFF00) ||| if bitSet op 7 then 0x80 else 0 := by
  have hlow : op &&& 0x80 = if bitSet op 7 then 0x80 else 0 := by
    have h := BitVec.and_twoPow op 7
    exact h
  rw [← hlow, ← BitVec.and_or_distrib_left]
  rfl

theorem targetPage_far (hop : op &&& 0xFF00 = 0xFA00 ∨ op &&& 0xFF00 = 0xFB00)
    (h7 : bitSet op 7) (s : Cpu) : targetPage op s = op &&& 3 := by
  have hfar := and_FF80 op
  rw [h7, if_pos rfl] at hfar
  unfold targetPage
  rw [if_pos]
  rcases hop with hop | hop <;> rw [hop] at hfar
  · exact Or.inl hfar
  · exact Or.inr hfar

theorem arms_ccd (hop : op &&& 0xFF00 = 0xFB00) : ArmsSoundly op (.control execCcd) := by
  intro c s tgt n harm hpush
  cases h7 : bitSet op 7 with
  | true =>
    simp only [execCcd, h7, if_true]
    exact moves_far (targetPage_far (.inr hop) h7 s) (fetchKept_farPush hpush _ c)
  | false =>
    have hnear : op &&& 0xFF80 = 0xFB00 := by rw [and_FF80, hop, h7]; rfl
    obtain ⟨st0, hcond⟩ := condTrue_eq (op &&& 0x7F) c s
    simp only [execCcd, h7, run_bind, run_ite, fetchAt_state, hcond, Bool.false_eq_true,
      if_false] at harm ⊢
    cases htake : (condTrue (op &&& 0x7F) c s).1 with
    | true =>
      simp only [if_true]
      have hkept := (fetchKept_push (s := { s with st0 := st0 }) hpush.1 ((c.pc + 4).setWidth 16) c).1
      exact moves_near hnear (by decide) ⟨hkept.xpc, hkept.pmst, hkept.rea⟩
    | false =>
      rw [htake] at harm
      cases harm

theorem arms_bcd (hop : op &&& 0xFF00 = 0xFA00) : ArmsSoundly op (.control execBcd) := by
  intro c s tgt n _ _
  cases h7 : bitSet op 7 with
  | true =>
    simp only [execBcd, h7, if_true]
    exact moves_far (targetPage_far (.inl hop) h7 s) ⟨rfl, rfl, rfl⟩
  | false =>
    have hnear : op &&& 0xFF80 = 0xFA00 := by rw [and_FF80, hop, h7]; rfl
    obtain ⟨st0, hcond⟩ := condTrue_eq (op &&& 0x7F) c s
    refine moves_near hnear (by decide) ?_
    simp only [execBcd, h7, run_get_bind]
    simp only [run_bind, run_ite, fetchAt_state, hcond, Bool.false_eq_true, if_false]
    repeat' first | split | exact ⟨rfl, rfl, rfl⟩

theorem arms_banzd (hop : op &&& 0xFF00 = 0x6E00) : ArmsSoundly op (.control execBanzd) := by
  intro c s tgt n _ _
  obtain ⟨ar, st0, lk, hresolve⟩ := resolveSmem_eq op c s
  refine moves_near hop (by decide) ?_
  simp only [execBanzd, run_get_bind]
  simp only [run_bind, run_ite, hresolve]
  split <;> exact ⟨rfl, rfl, rfl⟩

/-- These are all the delayed transfers: the other instructions end in another way. -/
theorem armsSoundly_of_mem : ∀ e ∈ entries, e.hits op → ArmsSoundly op e.act := by
  simp only [entries, tableF, tableF4, tableE, table67, table4, table23, table89, tableAB, plain,
    control, List.forall_mem_append, List.forall_mem_cons, armsSoundly_plain, implies_true,
    true_and, and_true, List.not_mem_nil, false_imp_iff, Entry.hits, beq_iff_eq, and_assoc]
  refine ⟨?_, ?_, ?_, ?_, ?_, fun _ => trivial, ?_, ?_, ?_, ?_, ?_, ?_, ?_, arms_calld, arms_bd,
    ?_, ?_, ?_, ?_, ?_, arms_reted (by decide), arms_reted (by decide), arms_baccd, arms_fretd,
    arms_fbaccd, ?_, ?_, ?_, ?_, arms_bcd, arms_ccd, ?_, arms_rcd, ?_, ?_, ?_, ?_, arms_banzd, ?_⟩
  all_goals
    intro _
    apply armsSoundly_of_direct
    simp only [execBacc, execFbacc, execRetf, execRete, reteFrom, execFret, execTrap, execB, execCall,
      execRptb, execRptLk, execRptz, execBcTc, execFb, execBanzAr, execBcAcc, execBanzSmem, execRptK8,
      execIntr, execReset, execCc, execRc, execRptSmem, execBcEd, execBanz, armRpt, fallThrough]
    repeat' first
      | (with_reducible apply yields_bind; intro _)
      | with_reducible apply yields_ite
      | exact yields_pure fun _ _ h => Flow.noConfusion h

/-- What an instruction that arms a transfer does. -/
theorem moves_of_delayed {c : Ctx} {tgt : Word} {n : Nat}
    (h : (execOp op c s).1 = .flow (.delayed tgt n)) (hpush : PushesToMemory s) :
    Moves op s (execOp op c s).2 := by
  have hsound : ArmsSoundly op (decode op) := by
    rcases decode_cases op with hnop | ⟨e, he, hhit, hact⟩
    · rw [hnop]
      exact armsSoundly_plain op execNop
    · rw [hact]
      exact armsSoundly_of_mem e he hhit
  obtain ⟨f, hd, hf⟩ := control_of_flow h fun _ => Flow.noConfusion
  rw [hd] at hsound
  have hmoves := hsound c { s with lkUsed := false } tgt n hf hpush
  rw [execOp_of_decode hd, run_control]
  exact ⟨hmoves.xpc, hmoves.pmst, hmoves.rea⟩

end Qosmo.C54x
