import Qosmo.C54x.Entry

/-!
# Qosmo.C54x.Rete

Returning from an interrupt.

The paths into an interrupt push two shapes of frame: PC and XPC, or, from the level
check with XPC zero, PC alone. RETE is not told which. It takes a word of at most 3 on
top of the stack for the XPC of the frame, and any other word for the return address.
With XPC at most 3 and the interrupted PC at least 4 that guess is always right
(`rete_restores`), as long as the frame is still there to be read: it must have been
pushed to ordinary data memory (`FrameInMemory`).
-/

namespace Qosmo.C54x

open State

variable {g : Gates} {bus : Bus} {s : State} {t : Taken} {c : Ctx} {u : Cpu} {a b v : Word}

/-! ### Ordinary data memory -/

/-- Addresses that keep what is written to them and are no register. -/
def isCell (a : Word) : Bool :=
  decide (0x20 ≤ a) && a != tcrAddr && !romDrop a && !isApm a && !isDpm a

theorem isCell_iff : isCell a ↔
    0x20 ≤ a ∧ a ≠ tcrAddr ∧ romDrop a = false ∧ isApm a = false ∧ isDpm a = false := by
  simp [isCell, and_assoc]

theorem dataWrite_cell (h : isCell a) :
    dataWrite c u a v = if inApi a then setApi u a v else setData u a v := by
  obtain ⟨hge, htcr, hrom, hapm, hdpm⟩ := isCell_iff.mp h
  have hlt : ¬ a < 0x20 := by bv_omega
  simp only [dataWrite, dataWriteLocked, hapm, hdpm, hrom, htcr, hlt, Bool.false_eq_true, if_false]

theorem dataRead_of_ge (hge : 0x20 ≤ a) (htcr : a ≠ tcrAddr) :
    dataRead u a =
      if inApi a then u.apiRam.elim (u.data a) (· (apiOff a)) else u.data a := by
  have hlt : ¬ a < 0x20 := by bv_omega
  simp only [dataRead, htcr, hlt, if_false]
  cases u.apiRam <;> rfl

theorem dataRead_cell (h : isCell a) :
    dataRead u a =
      if inApi a then u.apiRam.elim (u.data a) (· (apiOff a)) else u.data a := by
  obtain ⟨hge, htcr, -⟩ := isCell_iff.mp h
  exact dataRead_of_ge hge htcr

theorem apiOff_inj (ha : inApi a) (hb : inApi b) (h : apiOff a = apiOff b) :
    a = b := by
  simp only [inApi, Bool.and_eq_true, decide_eq_true_eq] at ha hb
  simp only [apiOff] at h
  bv_omega

theorem dataRead_dataWrite_same (h : isCell a) : dataRead (dataWrite c u a v) a = v := by
  rw [dataRead_cell h, dataWrite_cell h]
  split
  · unfold setApi setData
    cases u.apiRam <;> simp
  · simp [setData]

/-- A store at a word of memory does not show at any other address, registers apart. -/
theorem dataRead_dataWrite_apart (ha : isCell a) (hb : 0x20 ≤ b) (hne : b ≠ a) :
    dataRead (dataWrite c u a v) b = dataRead u b := by
  by_cases htcr : b = tcrAddr
  · subst htcr
    rw [dataWrite_cell ha]
    split <;> simp [dataRead, setApi, setData, hne]
  rw [dataRead_of_ge hb htcr, dataRead_of_ge hb htcr, dataWrite_cell ha]
  by_cases hia : inApi a
  · rw [if_pos hia]
    by_cases hib : inApi b
    · rw [if_pos hib, if_pos hib]
      have hoff : apiOff b ≠ apiOff a := fun h => hne (apiOff_inj hib hia h)
      unfold setApi setData
      cases u.apiRam <;> simp [hne, hoff]
    · rw [if_neg hib, if_neg hib]
      simp [setApi, setData, hne]
  · rw [if_neg hia]
    unfold setData
    simp [hne]

theorem dataRead_dataWrite_ne (ha : isCell a) (hb : isCell b) (hne : b ≠ a) :
    dataRead (dataWrite c u a v) b = dataRead u b :=
  dataRead_dataWrite_apart ha (isCell_iff.mp hb).1 hne

/-! ### A frame in memory -/

/-- Every word the frame has lies in ordinary data memory. -/
def FrameInMemory (s : Cpu) (always : Bool) : Prop :=
  isCell (s.sp - 1) = true ∧ (always = true ∨ s.xpc ≠ 0 → isCell (s.sp - 1 - 1) = true)

instance (s : Cpu) (always : Bool) : Decidable (FrameInMemory s always) :=
  inferInstanceAs (Decidable (_ ∧ _))

variable {always : Bool}

theorem FrameInMemory.of_eq {u' : Cpu} (h : FrameInMemory u always)
    (hsp : u'.sp = u.sp) (hxpc : u'.xpc = u.xpc) : FrameInMemory u' always := by
  unfold FrameInMemory at h ⊢
  rwa [hsp, hxpc]

variable {ret : Word}

theorem FrameInMemory.stored {addr old : Word} (h : FrameInMemory u always)
    (haddr : addr < 0x20) : C54x.stored (frameWords c u ret always) addr old = old := by
  obtain ⟨htop, hnext⟩ := h
  have hge := (isCell_iff.mp htop).1
  have hne : u.sp - 1 ≠ addr := by bv_omega
  have h18 : u.sp - 1 ≠ 0x18 := by bv_omega
  have h1e : u.sp - 1 ≠ 0x1E := by bv_omega
  rcases frameWords_cases c u ret always with heq | ⟨a, x, heq, ha, htwo⟩
  · rw [heq]
    exact if_neg hne
  · have hge' := (isCell_iff.mp (hnext (htwo h1e))).1
    have hne' : u.sp - 1 - 1 ≠ addr := by bv_omega
    rw [heq, ha h18]
    exact (if_neg hne').trans (if_neg hne)

/-- One pushed word: SP moves by one, the word can be read back, and nothing else in
memory changes. -/
theorem pushWord_cell (h : isCell (u.sp - 1)) :
    (pushWord c u v).sp = u.sp - 1 ∧ (pushWord c u v).xpc = u.xpc ∧
    dataRead (pushWord c u v) (u.sp - 1) = v ∧
    ∀ b, isCell b → b ≠ u.sp - 1 → dataRead (pushWord c u v) b = dataRead u b := by
  have hge := (isCell_iff.mp h).1
  have hsp : u.sp - 1 ≠ 0x18 := by bv_omega
  have hxpc : u.sp - 1 ≠ 0x1E := by bv_omega
  refine ⟨?_, ?_, dataRead_dataWrite_same h, ?_⟩
  · exact sp_dataWrite.trans (if_neg fun hc => hsp hc.1)
  · exact xpc_dataWrite.trans (if_neg hxpc)
  · intro b hb hne
    exact (dataRead_dataWrite_ne h hb hne).trans (by rw [dataRead_cell hb, dataRead_cell hb])

/-- A frame as RETE finds it below `sp`: the return address, and on top of it the XPC,
unless that is zero and was not pushed. -/
structure FrameOn (sp xpc ret : Word) (e : Cpu) : Prop where
  cell : isCell (sp - 1) = true
  ret_eq : dataRead e (sp - 1) = ret
  top : (e.sp = sp - 1 - 1 ∧ isCell (sp - 1 - 1) = true ∧ dataRead e (sp - 1 - 1) = xpc) ∨
    (e.sp = sp - 1 ∧ xpc = 0)

theorem FrameOn.of_eq {sp xpc : Word} {e e' : Cpu} (h : FrameOn sp xpc ret e) (hsp : e'.sp = e.sp)
    (hread : ∀ a, isCell a → a = sp - 1 ∨ a = e.sp → dataRead e' a = dataRead e a) :
    FrameOn sp xpc ret e' := by
  refine ⟨h.cell, (hread _ h.cell (Or.inl rfl)).trans h.ret_eq, ?_⟩
  rcases h.top with ⟨hesp, hcell, hx⟩ | ⟨hesp, hx⟩
  · exact Or.inl ⟨hsp.trans hesp, hcell, (hread _ hcell (Or.inr hesp.symm)).trans hx⟩
  · exact Or.inr ⟨hsp.trans hesp, hx⟩

/-- A frame of two words: the return address, and XPC on top. -/
theorem pushFrame_two (c : Ctx) (ret : Word) (h : FrameInMemory u always)
    (htwo : always ∨ u.xpc ≠ 0) :
    (pushFrame c u ret always).sp = u.sp - 1 - 1 ∧
    dataRead (pushFrame c u ret always) (u.sp - 1 - 1) = u.xpc ∧
    dataRead (pushFrame c u ret always) (u.sp - 1) = ret := by
  obtain ⟨hsp, hxpc, hread, -⟩ := pushWord_cell (c := c) (v := ret) h.1
  have hcell := h.2 htwo
  have hne : u.sp - 1 ≠ u.sp - 1 - 1 := by bv_omega
  rw [← hsp] at hcell
  obtain ⟨hsp', -, hread', hother⟩ := pushWord_cell (c := c) (v := u.xpc) hcell
  unfold pushFrame
  dsimp only
  rw [hxpc, if_pos (by simpa using htwo)]
  rw [hsp] at hsp' hread' hother
  exact ⟨hsp', hread', (hother _ h.1 hne).trans hread⟩

/-- A frame of one word: XPC is zero and was not pushed. -/
theorem pushFrame_one (c : Ctx) (ret : Word) (h : FrameInMemory u always)
    (hone : ¬(always ∨ u.xpc ≠ 0)) :
    (pushFrame c u ret always).sp = u.sp - 1 ∧
    dataRead (pushFrame c u ret always) (u.sp - 1) = ret := by
  obtain ⟨hsp, hxpc, hread, -⟩ := pushWord_cell (c := c) (v := ret) h.1
  unfold pushFrame
  dsimp only
  rw [hxpc, if_neg (by simpa using hone)]
  exact ⟨hsp, hread⟩

theorem pushFrame_frameOn (h : FrameInMemory u always) :
    FrameOn u.sp u.xpc ret (pushFrame c u ret always) := by
  by_cases htwo : always ∨ u.xpc ≠ 0
  · obtain ⟨hsp, htop, hret⟩ := pushFrame_two c ret h htwo
    exact ⟨h.1, hret, Or.inl ⟨hsp, h.2 htwo, htop⟩⟩
  · obtain ⟨hsp, hret⟩ := pushFrame_one c ret h htwo
    push Not at htwo
    exact ⟨h.1, hret, Or.inr ⟨hsp, htwo.2⟩⟩

theorem enter_frameOn {vec bit : Nat} (h : FrameInMemory s.toCpu always) :
    FrameOn s.sp s.xpc ret (enter c s vec bit ret always).toCpu := by
  have hframe : FrameOn s.sp s.xpc ret
      (pushFrame c { s.toCpu with ifr := clearBit s.ifr bit } ret always) :=
    pushFrame_frameOn (u := { s.toCpu with ifr := clearBit s.ifr bit }) h
  refine hframe.of_eq rfl fun a ha _ => ?_
  rw [dataRead_cell ha, dataRead_cell ha]
  rfl

/-! ### RETE -/

/-- RETE looks at the word on top first. -/
theorem execOp_rete : execOp 0xF4EB c u =
    ((do return .flow (← reteFrom (dataRead u u.sp))) : Exec Outcome) c
      { u with lkUsed := false } := rfl

/-- A word of at most 3 on top: XPC is popped, then PC. -/
theorem rete_far (h : dataRead u u.sp ≤ 3) : execOp 0xF4EB c u =
    (.flow (.goto (dataRead
        { u with lkUsed := false, xpc := dataRead u u.sp &&& 3, sp := u.sp + 1 } (u.sp + 1))),
      { u with
        lkUsed := false, xpc := dataRead u u.sp &&& 3, sp := u.sp + 1 + 1
        st1 := clearBit u.st1 St1.intm }) := by
  rw [execOp_rete]
  unfold reteFrom
  rw [if_pos h]
  rfl

/-- Any other word on top: it is the PC. -/
theorem rete_near (h : ¬ dataRead u u.sp ≤ 3) : execOp 0xF4EB c u =
    (.flow (.goto (dataRead u u.sp)),
      { u with lkUsed := false, sp := u.sp + 1, st1 := clearBit u.st1 St1.intm }) := by
  rw [execOp_rete]
  unfold reteFrom
  rw [if_neg h]
  rfl

/-- RETE on `u` resumes at `pc` with SP and XPC as they were and interrupts enabled. -/
def Restores (sp xpc pc : Word) (c : Ctx) (u : Cpu) : Prop :=
  (execOp 0xF4EB c u).1 = .flow (.goto pc) ∧ (execOp 0xF4EB c u).2.sp = sp ∧
    (execOp 0xF4EB c u).2.xpc = xpc ∧ (execOp 0xF4EB c u).2.intm = false

theorem and_three {x : Word} (h : x ≤ 3) : x &&& 3 = x := by
  apply BitVec.eq_of_toNat_eq
  have hle : x.toNat ≤ 3 := h
  rw [BitVec.toNat_and, show BitVec.toNat (3 : Word) = 2 ^ 2 - 1 from rfl,
    Nat.and_two_pow_sub_one_eq_mod]
  omega

/-- RETE guesses the shape of a frame right. -/
theorem FrameOn.restores {sp xpc : Word} (h : FrameOn sp xpc ret u) (hpage : u.xpc = 0)
    (hxpc : xpc ≤ 3) (hret : 4 ≤ ret) : Restores sp xpc ret c u := by
  unfold Restores
  rcases h.top with ⟨hsp, hcell, hx⟩ | ⟨hsp, hx⟩
  · -- XPC is on top
    have htop : dataRead u u.sp = xpc := by rw [hsp, hx]
    have hle : dataRead u u.sp ≤ 3 := by rw [htop]; exact hxpc
    have hnext : u.sp + 1 = sp - 1 := by rw [hsp]; bv_omega
    rw [rete_far hle, htop, hnext]
    refine ⟨?_, by bv_omega, ?_, bitSet_clearBit_self _ _⟩
    · have hread : dataRead { u with lkUsed := false, xpc := xpc &&& 3, sp := sp - 1 } (sp - 1) =
          dataRead u (sp - 1) := by rw [dataRead_cell h.cell, dataRead_cell h.cell]
      rw [hread, h.ret_eq]
    · exact and_three hxpc
  · -- PC is on top, and is no XPC
    have htop : dataRead u u.sp = ret := by rw [hsp, h.ret_eq]
    have hle : ¬ dataRead u u.sp ≤ 3 := by rw [htop]; bv_omega
    rw [rete_near hle, htop]
    exact ⟨rfl, by rw [hsp]; bv_omega, hpage.trans hx.symm, bitSet_clearBit_self _ _⟩

/-- The service routine has left SP, XPC and the words of the frame pushed from `sp` as
the entry left them. -/
structure FrameKept (sp : Word) (entered u : Cpu) : Prop where
  sp_eq : u.sp = entered.sp
  xpc_eq : u.xpc = entered.xpc
  words : ∀ a, a = sp - 1 ∨ a = entered.sp → dataRead u a = dataRead entered a

/-- What an entry pushed to memory and a service routine kept, RETE takes back. -/
theorem enter_restores {r : State} {vec bit : Nat} {c' : Ctx}
    (hsp : r.sp = s.sp) (hpage : r.xpc = s.xpc) (hmem : FrameInMemory s.toCpu always)
    (hkept : FrameKept s.sp (enter c r vec bit ret always).toCpu u)
    (hxpc : s.xpc ≤ 3) (hret : 4 ≤ ret) : Restores s.sp s.xpc ret c' u := by
  have hmem' : FrameInMemory r.toCpu always := hmem.of_eq hsp hpage
  have hframe : FrameOn s.sp s.xpc ret (enter c r vec bit ret always).toCpu := by
    rw [← hsp, ← hpage]
    exact enter_frameOn hmem'
  exact (hframe.of_eq hkept.sp_eq fun a _ ha => hkept.words a ha).restores
    (hkept.xpc_eq.trans rfl) hxpc hret

/-- **RETE undoes every entry**: by the level check, by replay, or by a request, running
or in IDLE. With the frame in ordinary data memory, XPC at most 3 and the interrupted PC
at least 4, RETE restores the interrupted PC, XPC and SP and clears INTM, whichever shape
the frame has. -/
theorem rete_restores (g : Gates) (bus : Bus) (s : State) (hxpc : s.xpc ≤ 3) :
    (∀ t, (levelCheck g bus s).2 = some t → 4 ≤ s.pc16 → FrameInMemory s.toCpu false →
      ∀ c u, FrameKept s.sp (levelCheck g bus s).1.toCpu u → Restores s.sp s.xpc s.pc16 c u) ∧
    (∀ t, (replay bus s).2 = some t → 4 ≤ s.pc16 → FrameInMemory s.toCpu true →
      ∀ c u, FrameKept s.sp (replay bus s).1.toCpu u → Restores s.sp s.xpc s.pc16 c u) ∧
    (∀ vec bit t, (interruptEx bus s vec bit).2 = some t → 4 ≤ s.resumePc →
      FrameInMemory s.toCpu true →
      ∀ c u, FrameKept s.sp (interruptEx bus s vec bit).1.toCpu u →
        Restores s.sp s.xpc s.resumePc c u) := by
  refine ⟨?_, ?_, ?_⟩
  · intro t ht hpc hmem c u hkept
    obtain ⟨-, -, hpre, henter⟩ := levelCheck_eq_some ht
    have hsame : t.pre.sp = s.sp ∧ t.pre.xpc = s.xpc ∧ t.pre.pc16 = s.pc16 := by
      obtain ⟨ifr, hifr⟩ := dmaLevel_eq bus s
      rw [hpre, hifr]
      exact ⟨rfl, rfl, rfl⟩
    rw [henter, hsame.2.2] at hkept
    exact enter_restores hsame.1 hsame.2.1 hmem hkept hxpc hpc
  · intro t ht hpc hmem c u hkept
    rw [(replay_eq_some ht).2.2] at hkept
    exact enter_restores rfl rfl hmem hkept hxpc hpc
  · intro vec bit t ht hpc hmem c u hkept
    obtain ⟨-, -, -, idle, henter⟩ := interruptEx_eq_some ht
    rw [henter] at hkept
    exact enter_restores (by rfl) (by rfl) hmem hkept hxpc hpc

/-- RSBX INTM has been executed, and the DMA line is up: a frame of one word. -/
def openState : State :=
  ((core ⟨true⟩).final (boot dmaProgram) [.pass .quiet, .pass .quiet])

theorem level_frame_restored :
    ∃ t, (levelCheck ⟨true⟩ .dmaUp openState).2 = some t ∧
      (levelCheck ⟨true⟩ .dmaUp openState).1.sp = openState.sp - 1 ∧
      Restores openState.sp openState.xpc openState.pc16 (openState.ctx .quiet)
        (levelCheck ⟨true⟩ .dmaUp openState).1.toCpu := by
  obtain ⟨t, ht⟩ := Option.isSome_iff_exists.mp
    (show (levelCheck ⟨true⟩ .dmaUp openState).2.isSome = true by decide +kernel)
  exact ⟨t, ht, by decide +kernel, (rete_restores ⟨true⟩ .dmaUp openState (by decide +kernel)).1 t ht
    (by decide +kernel) (by decide +kernel) _ _ ⟨rfl, rfl, fun _ _ => rfl⟩⟩

/-- STM #0x9008, SP; RSBX INTM; and RETE at vector 28, which is word 0x70 behind the reset
vector. -/
def dropProgram : List Word := [0x7718, 0x9008, 0xF6BB] ++ List.replicate 109 0xF495 ++ [0xF4EB]

/-- The return address is pushed to 0x9007, a ROM word that drops writes, so RETE returns
to whatever stands there. -/
theorem frame_dropped :
    ((core ⟨false⟩).final (boot dropProgram) [.pass .quiet, .pass .quiet]).pc = 0xFF83 ∧
    executions ((core ⟨false⟩).trace (boot dropProgram)
      [.pass .quiet, .pass .quiet, .request .quiet 28 12, .pass .quiet]) =
      [(0xFF80, 0x7718), (0xFF82, 0xF6BB), (0xFFF0, 0xF4EB)] ∧
    ((core ⟨false⟩).final (boot dropProgram)
      [.pass .quiet, .pass .quiet, .request .quiet 28 12, .pass .quiet]).pc = 0 := by
  refine ⟨?_, ?_, ?_⟩ <;> decide +kernel

end Qosmo.C54x
