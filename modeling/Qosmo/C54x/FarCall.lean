import Qosmo.C54x.Family
import Qosmo.C54x.Rete

/-!
# Qosmo.C54x.FarCall

Far calls and far returns.

A far call pushes the return address and XPC, a far return takes them back. Which of the two lies
on top is a gate, `CALYPSO_FAR_STACK_SPRU`: XPC by default, as in the manual and in an interrupt
frame; the return address in the legacy order. `c54x_far_push` and FRET ask the gate, FRETD and
FRETED always find XPC on top. The legacy order is therefore one for calls that return by FRET or
FRETE only, and this is what the gate's comment says of it.

The core of this development runs with the default setting; here both are modelled
(`FarCall.exec`, `FarReturn.exec`), and the default one is the decoder's own
(`FarCall.execOp_eq`, `FarReturn.execOp_eq`).
-/

namespace Qosmo.C54x



/-! ### The instructions under both settings -/

/-- `c54x_far_push`; `spru` is the gate. -/
def farPushBy (spru : Bool) (retPc : Word) : Exec Unit := do
  if spru then
    push retPc
    push (← get).xpc
  else
    push (← get).xpc
    push retPc

inductive FarCall where
  | fcall
  | fcala
  | fcalld
  | fcalad
  deriving DecidableEq, Repr

inductive FarReturn where
  | fret
  | frete
  | fretd
  | freted
  deriving DecidableEq, Repr

namespace FarCall

/-- The opcodes: FCALL and FCALLD with the page in their low bits, FCALA and FCALAD for both
accumulators. -/
def hits : FarCall → Word → Bool
  | .fcall, op => op &&& 0xFF80 == 0xF980
  | .fcala, op => op &&& 0xFEFF == 0xF4E7
  | .fcalld, op => op &&& 0xFF80 == 0xFB80
  | .fcalad, op => op &&& 0xFEFF == 0xF6E7

/-- From the call to the word it returns to, the delay slots included. -/
def span : FarCall → Nat
  | .fcall => 2
  | .fcala => 1
  | .fcalld => 4
  | .fcalad => 3

/-- The word the call returns to. -/
def resume (f : FarCall) (c : Ctx) : Word := (c.pc + BitVec.ofNat 32 f.span).setWidth 16

def exec (spru : Bool) : FarCall → Word → Exec Flow
  | .fcall, op => do
    let op2 ← fetchAt 1
    farPushBy spru (← pcPlus 2)
    setXpc (op &&& 3)
    return .goto op2
  | .fcala, op => do
    let acc := (← get).acc (dstB op)
    farPushBy spru (← pcPlus 1)
    setXpc (pageOf acc)
    return .goto (lowWord acc)
  | .fcalld, op => do
    let op2 ← fetchAt 1
    farPushBy spru (← pcPlus 4)
    setXpc (op &&& 3)
    delayTo op2 2
  | .fcalad, op => do
    let acc := (← get).acc (dstB op)
    farPushBy spru (← pcPlus 3)
    setXpc (pageOf acc)
    delayTo (lowWord acc) 1

end FarCall

/-- FRET and FRETE pop in the order of the gate. -/
def fretBy (spru enable : Bool) : Exec Flow := do
  let first ← pop
  let second ← pop
  if enable then clearIntm
  setXpc ((if spru then first else second) &&& 3)
  return .goto (if spru then second else first)

namespace FarReturn

def opcode : FarReturn → Word
  | .fret => 0xF4E4
  | .frete => 0xF4E5
  | .fretd => 0xF6E4
  | .freted => 0xF6E5

/-- FRETD and FRETED. -/
def isDelayed : FarReturn → Bool
  | .fret | .frete => false
  | .fretd | .freted => true

/-- FRETD and FRETED do not look at the gate. -/
def exec (spru : Bool) : FarReturn → Exec Flow
  | .fret => fretBy spru false
  | .frete => fretBy spru true
  | .fretd => execFretd 0xF6E4
  | .freted => execFretd 0xF6E5

end FarReturn

/-- Where the flow goes, at once or behind the delay slots. -/
def Flow.target : Flow → Option Word
  | .goto tgt => some tgt
  | .delayed tgt _ => some tgt
  | _ => none

/-! ### The default setting is the decoder's -/

variable {op : Word} {c c' : Ctx} {s u : Cpu} {spru : Bool}

theorem FarReturn.execOp_eq (r : FarReturn) (c : Ctx) (s : Cpu) :
    execOp r.opcode c s =
      (.flow (r.exec true c { s with lkUsed := false }).1,
        (r.exec true c { s with lkUsed := false }).2) := by
  cases r <;> rfl

theorem FarCall.execOp_eq {f : FarCall} (h : f.hits op) (c : Ctx) (s : Cpu) :
    execOp op c s =
      (.flow (f.exec true op c { s with lkUsed := false }).1,
        (f.exec true op c { s with lkUsed := false }).2) := by
  cases f with
  | fcall =>
    replace h : op &&& 0xFF80 = 0xF980 := beq_iff_eq.mp h
    have hmask : op &&& 0xFF00 = 0xF900 := and_of_and h rfl
    have hdec : decode op = .control execCc := decode_of_first hmask rfl rfl
    have h7 : bitSet op 7 := bitSet_of_and h rfl
    rw [execOp_of_decode hdec, run_control]
    simp only [execCc, h7, if_true]
    rfl
  | fcala =>
    replace h : op &&& 0xFEFF = 0xF4E7 := beq_iff_eq.mp h
    have hmask : op &&& 0xFEFE = 0xF4E6 := and_of_and h rfl
    have hdec : decode op = .control execFbacc := decode_of_first hmask rfl rfl
    have h0 : bitSet op 0 := bitSet_of_and h rfl
    rw [execOp_of_decode hdec, run_control]
    simp only [execFbacc, h0, if_true]
    rfl
  | fcalld =>
    replace h : op &&& 0xFF80 = 0xFB80 := beq_iff_eq.mp h
    have hmask : op &&& 0xFF00 = 0xFB00 := and_of_and h rfl
    have hdec : decode op = .control execCcd := decode_of_first hmask rfl rfl
    have h7 : bitSet op 7 := bitSet_of_and h rfl
    rw [execOp_of_decode hdec, run_control]
    simp only [execCcd, h7, if_true]
    rfl
  | fcalad =>
    replace h : op &&& 0xFEFF = 0xF6E7 := beq_iff_eq.mp h
    have hmask : op &&& 0xFEFE = 0xF6E6 := and_of_and h rfl
    have hdec : decode op = .control execFbaccd := decode_of_first hmask rfl rfl
    have h0 : bitSet op 0 := bitSet_of_and h rfl
    rw [execOp_of_decode hdec, run_control]
    simp only [execFbaccd, h0, if_true]
    rfl

/-! ### What a call leaves on the stack -/

/-- The two words a far call pushes lie in ordinary data memory. -/
def FarFrameInMemory (s : Cpu) : Prop := isCell (s.sp - 1) = true ∧ isCell (s.sp - 1 - 1) = true

instance (s : Cpu) : Decidable (FarFrameInMemory s) := inferInstanceAs (Decidable (_ ∧ _))

/-- The frame of a far call from a core with this SP and XPC. -/
structure FarFrame (spru : Bool) (sp xpc ret : Word) (e : Cpu) : Prop where
  sp_eq : e.sp = sp - 1 - 1
  below : dataRead e (sp - 1) = if spru then ret else xpc
  top : dataRead e (sp - 1 - 1) = if spru then xpc else ret

theorem farFrame_farPushBy (spru : Bool) (h : FarFrameInMemory s) (ret : Word) (c : Ctx) :
    FarFrame spru s.sp s.xpc ret (farPushBy spru ret c s).2 := by
  obtain ⟨hfirst, hsecond⟩ := h
  have hne : s.sp - 1 ≠ s.sp - 1 - 1 := by bv_omega
  -- one push behind the other, whichever word comes first
  have hpushes : ∀ v v', FarFrame true s.sp v' v (pushWord c (pushWord c s v) v') := by
    intro v v'
    obtain ⟨hsp, -, hread, -⟩ := pushWord_cell (c := c) (v := v) hfirst
    rw [← hsp] at hsecond
    obtain ⟨hsp', -, hread', hother⟩ := pushWord_cell (c := c) (v := v') hsecond
    rw [hsp] at hsp' hread' hother
    exact ⟨hsp', (hother _ hfirst hne).trans hread, hread'⟩
  obtain ⟨-, hxpc, -, -⟩ := pushWord_cell (c := c) (v := ret) hfirst
  cases spru with
  | true =>
    have hrun : (farPushBy true ret c s).2 =
        pushWord c (pushWord c s ret) (pushWord c s ret).xpc := rfl
    rw [hrun, hxpc]
    exact hpushes ret s.xpc
  | false =>
    have hrun : (farPushBy false ret c s).2 = pushWord c (pushWord c s s.xpc) ret := rfl
    rw [hrun]
    obtain ⟨hsp, hbelow, htop⟩ := hpushes s.xpc ret
    exact ⟨hsp, hbelow, htop⟩

/-- Every far call pushes its frame and then changes the page. -/
theorem FarCall.exec_eq (f : FarCall) (spru : Bool) (op : Word) (c : Ctx) (s : Cpu) :
    ∃ page, (f.exec spru op c s).2 = { (farPushBy spru (f.resume c) c s).2 with xpc := page } := by
  cases f with
  | fcall | fcala | fcalld | fcalad => exact ⟨_, rfl⟩

/-- The code between call and return has left SP and the two stack words alone. -/
structure FarFrameKept (e u : Cpu) : Prop where
  sp_eq : u.sp = e.sp
  top : dataRead u e.sp = dataRead e e.sp
  below : dataRead u (e.sp + 1) = dataRead e (e.sp + 1)

/-- A far return finds the frame of the call. -/
theorem farFrame_of_kept {f : FarCall} (h : FarFrameInMemory s)
    (hkept : FarFrameKept (f.exec spru op c s).2 u) : FarFrame spru s.sp s.xpc (f.resume c) u := by
  obtain ⟨page, hexec⟩ := f.exec_eq spru op c s
  obtain ⟨hsp, hbelow, htop⟩ := farFrame_farPushBy spru h (f.resume c) c
  rw [hexec] at hkept
  generalize (farPushBy spru (f.resume c) c s).2 = e at hkept hsp hbelow htop
  obtain ⟨hsp', htop', hbelow'⟩ := hkept
  have hnext : e.sp + 1 = s.sp - 1 := by rw [hsp]; bv_omega
  -- the page is no part of a word in memory
  have hpage : ∀ a, isCell a → dataRead { e with xpc := page } a = dataRead e a := by
    intro a ha
    rw [dataRead_cell ha, dataRead_cell ha]
  dsimp only at hsp' htop' hbelow'
  rw [hnext, hpage _ h.1, hbelow] at hbelow'
  rw [hpage _ (hsp ▸ h.2), hsp, htop] at htop'
  exact ⟨hsp'.trans hsp, hbelow', htop'⟩

/-! ### Call and return -/

variable {sp xpc ret : Word}

section

variable (hcell : isCell (sp - 1) = true)

include hcell

theorem FarFrame.pops (h : FarFrame spru sp xpc ret u) (page : Word) :
    u.sp + 1 + 1 = sp ∧ dataRead u u.sp = (if spru then xpc else ret) ∧
      dataRead { u with sp := u.sp + 1, xpc := page } (u.sp + 1) = if spru then ret else xpc := by
  have hnext : u.sp + 1 = sp - 1 := by rw [h.sp_eq]; bv_omega
  refine ⟨by rw [hnext]; bv_omega, by rw [h.sp_eq, h.top], ?_⟩
  rw [hnext, ← h.below, dataRead_cell hcell, dataRead_cell hcell]

theorem fretBy_eq (enable : Bool) (h : FarFrame spru sp xpc ret u) (c : Ctx) :
    ∃ st1, fretBy spru enable c u =
      (.goto ret, { u with sp := sp, xpc := xpc &&& 3, st1 := st1 }) := by
  obtain ⟨hsp, hfirst, hsecond⟩ := h.pops hcell u.xpc
  have hrun : ∃ st1, fretBy spru enable c u =
      (.goto (if spru then dataRead { u with sp := u.sp + 1 } (u.sp + 1) else dataRead u u.sp),
        { u with
          sp := u.sp + 1 + 1, st1 := st1
          xpc := (if spru then dataRead u u.sp
            else dataRead { u with sp := u.sp + 1 } (u.sp + 1)) &&& 3 }) := by
    cases enable with
    | false => exact ⟨u.st1, rfl⟩
    | true => exact ⟨_, rfl⟩
  obtain ⟨st1, hrun⟩ := hrun
  refine ⟨st1, ?_⟩
  rw [hrun, hsp, hfirst, hsecond]
  cases spru <;> rfl

theorem execFretd_eq (op : Word) (h : FarFrame true sp xpc ret u) (c : Ctx) :
    ∃ st1 n, execFretd op c u =
      (.delayed ret n, { u with sp := sp, xpc := xpc &&& 3, st1 := st1 }) := by
  obtain ⟨hsp, hfirst, hsecond⟩ := h.pops hcell (dataRead u u.sp &&& 3)
  have hrun : ∃ st1 n, execFretd op c u =
      (.delayed (dataRead { u with sp := u.sp + 1, xpc := dataRead u u.sp &&& 3 } (u.sp + 1)) n,
        { u with sp := u.sp + 1 + 1, st1 := st1, xpc := dataRead u u.sp &&& 3 }) := by
    cases hintm : bitSet op 0 with
    | false =>
      simp only [execFretd, hintm, Bool.false_eq_true, if_false]
      exact ⟨u.st1, _, rfl⟩
    | true =>
      simp only [execFretd, hintm, if_true]
      exact ⟨_, _, rfl⟩
  obtain ⟨st1, n, hrun⟩ := hrun
  refine ⟨st1, n, ?_⟩
  rw [hrun, hsecond, hsp, hfirst]
  rfl

theorem FarReturn.exec_target (r : FarReturn) (hxpc : xpc ≤ 3)
    (hgate : spru ∨ r.isDelayed = false) (h : FarFrame spru sp xpc ret u) (c : Ctx) :
    (r.exec spru c u).1.target = some ret ∧ (r.exec spru c u).2.xpc = xpc ∧
      (r.exec spru c u).2.sp = sp := by
  have hnear : ∀ enable, (fretBy spru enable c u).1.target = some ret ∧
      (fretBy spru enable c u).2.xpc = xpc ∧ (fretBy spru enable c u).2.sp = sp := by
    intro enable
    obtain ⟨st1, heq⟩ := fretBy_eq hcell enable h c
    rw [heq]
    exact ⟨rfl, and_three hxpc, rfl⟩
  have hdelayed : spru → ∀ op, (execFretd op c u).1.target = some ret ∧
      (execFretd op c u).2.xpc = xpc ∧ (execFretd op c u).2.sp = sp := by
    rintro rfl op
    obtain ⟨st1, n, heq⟩ := execFretd_eq hcell op h c
    rw [heq]
    exact ⟨rfl, and_three hxpc, rfl⟩
  cases r with
  | fret => exact hnear false
  | frete => exact hnear true
  | fretd | freted => exact hdelayed (hgate.resolve_right Bool.noConfusion) _

end

/-- A far call and a far return with the stack words untouched in between: control comes back to
the word behind the call, on the caller's page and with the caller's SP. In the legacy order of
the frame this is so for FRET and FRETE. -/
theorem far_return_resumes (f : FarCall) (r : FarReturn) (op : Word) (c c' : Ctx) (s u : Cpu)
    (hxpc : s.xpc ≤ 3) (hmem : FarFrameInMemory s) (hgate : spru = true ∨ r.isDelayed = false)
    (hkept : FarFrameKept (f.exec spru op c s).2 u) :
    (r.exec spru c' u).1.target = some (f.resume c) ∧ (r.exec spru c' u).2.xpc = s.xpc ∧
      (r.exec spru c' u).2.sp = s.sp :=
  r.exec_target hmem.1 hxpc hgate (farFrame_of_kept hmem hkept) c'

/-- FCALL and FRETED in the default order, right behind each other. -/
theorem far_return_resumes_fcall :
    let s := (boot [0xF981, 0x1234]).toCpu
    let c := (boot [0xF981, 0x1234]).ctx .quiet
    let e := (FarCall.fcall.exec true 0xF981 c s).2
    (FarReturn.freted.exec true c e).1.target = some 0xFF82 ∧
      (FarReturn.freted.exec true c e).2.xpc = s.xpc ∧ (FarReturn.freted.exec true c e).2.sp = s.sp :=
  far_return_resumes .fcall .freted 0xF981 _ _ _ _ (by decide +kernel) (by decide +kernel)
    (.inl rfl) ⟨rfl, rfl, rfl⟩

/-- In the legacy order FRETD goes to the page it should return to; and a frame pushed on ROM
words that drop stores is not there to be popped. -/
theorem fretd_in_legacy_order :
    let s := (boot [0xF981, 0x1234]).toCpu
    let c := (boot [0xF981, 0x1234]).ctx .quiet
    let e := (FarCall.fcall.exec false 0xF981 c s).2
    let dropped := (FarCall.fcall.exec true 0xF981 c { s with sp := 0x9008 }).2
    FarCall.fcall.resume c = 0xFF82 ∧ (FarReturn.fretd.exec false c e).1.target = some 0 ∧
      (FarReturn.fret.exec true c dropped).1.target = some 0 := by
  decide +kernel

end Qosmo.C54x
