import Qosmo.C54x.Rete
import Qosmo.C54x.Slots

/-!
# Qosmo.C54x.Reted

RETED beside RETE.

RETE looks at the top of the stack to find out whether the frame has an XPC word. RETED does not:
it pops one word. The two therefore end in the same place exactly on the frames without an XPC
word, which only the level check pushes, and only on page 0 (`reted_agrees_iff`). On any other
frame RETED takes the XPC for the return address and leaves the return address on the stack.
-/

namespace Qosmo.C54x

open State

variable {g : Gates} {bus : Bus} {s u w : State}

/-! ### The slots of a delayed transfer -/

/-- The turn of a delay-slot instruction of `n` words that leaves PC and the stack alone: it falls
through, no interrupt comes in front of it, and no block repeat moves PC behind it. -/
structure SlotTurn (g : Gates) (bus : Bus) (s u : State) (n : Nat) : Prop where
  decoded : decoding g bus s = some u
  undisturbed : replayBit s = none
  falls : outcome bus u = .flow (.next n)
  pos : 0 < n
  block : ¬EndsRound u (cpuAfter bus u) n
  stack : (cpuAfter bus u).sp = u.sp

/-- The delay slots, `n` words in all: one instruction, or an instruction and the rest. -/
inductive Slots (g : Gates) : State → Nat → State → Prop where
  | last {bus : Bus} {s u : State} {n : Nat} : SlotTurn g bus s u n → Slots g s n (pass g bus s).1
  | more {bus : Bus} {s u w : State} {k n : Nat} : SlotTurn g bus s u k →
      Slots g (pass g bus s).1 n w → Slots g s (k + n) w

theorem Slots.pos {n : Nat} (h : Slots g s n w) : 0 < n := by
  induction h with
  | last h => exact h.pos
  | more h _ ih => omega

theorem decoding_sp (h : decoding g bus s = some u) (hreplay : replayBit s = none) :
    u.sp = s.sp := by
  obtain ⟨ifr, hifr⟩ := decoding_prepare h hreplay
  obtain ⟨data, last, prev, fiable, hprep⟩ := prepare_eq s
  rw [hifr, hprep]

theorem Slots.target {e : Cpu} {pc tgt : Word} {n : Nat} (h : Slots g s n w)
    (hs : Pending e pc n tgt s) : w.pc16 = tgt ∧ w.sp = s.sp := by
  induction h generalizing e pc with
  | last h =>
    obtain ⟨hseq, -, -⟩ := decoding_same h.decoded h.undisturbed
    have hlast : _ = _ := hs.slots.symm.trans (by rw [← hseq])
    have hrpt := (congrArg Seq.rptActive hseq).trans hs.rpt
    obtain ⟨hregs, hpc⟩ := settles_of_last_slot h.decoded hrpt h.block h.falls h.pos hlast
    refine ⟨?_, ?_⟩
    · rw [hpc, congrArg Seq.delayedPc hseq, hs.target]
    · rw [hregs.sp, h.stack, decoding_sp h.decoded h.undisturbed]
  | @more bus s u w k n h hrest ih =>
    obtain ⟨hseq, -, -⟩ := decoding_same h.decoded h.undisturbed
    have hcount := (congrArg (fun q : Seq => q.delaySlots.toNat) hseq).trans hs.slots
    have hrpt := (congrArg Seq.rptActive hseq).trans hs.rpt
    have hpos := hrest.pos
    have hpend := pending_of_slot h.decoded hrpt h.block h.falls h.pos (by omega)
    have htgt := (congrArg Seq.delayedPc hseq).trans hs.target
    rw [show u.delaySlots.toNat - k = n by omega, htgt] at hpend
    obtain ⟨hpc, hsp⟩ := ih hpend
    exact ⟨hpc, by rw [hsp, hpend.sp, h.stack, decoding_sp h.decoded h.undisturbed]⟩

/-! ### RETED and RETE on one stack -/

theorem execOp_reted (c : Ctx) (u : Cpu) : execOp 0xF6EB c u =
    (.flow (.delayed (dataRead u u.sp) 1),
      { u with lkUsed := false, sp := u.sp + 1, st1 := clearBit u.st1 St1.intm }) := rfl

/-- RETED decoded in `u`, and its two slots up to `w`. -/
structure RetedRun (g : Gates) (bus : Bus) (s u w : State) : Prop where
  decoded : decoding g bus s = some u
  opcode : opAt u = 0xF6EB
  unslotted : u.delaySlots = 0
  once : u.rptActive = false
  block : ¬EndsRound u u.toCpu 1
  slots : Slots g (pass g bus s).1 2 w

/-- `w` is where RETE, executed in `u`, goes. -/
structure AgreesWithRete (bus : Bus) (u w : State) : Prop where
  pc : (execOp 0xF4EB (u.ctx bus) u.toCpu).1 = .flow (.goto w.pc16)
  xpc : w.xpc = (execOp 0xF4EB (u.ctx bus) u.toCpu).2.xpc
  sp : w.sp = (execOp 0xF4EB (u.ctx bus) u.toCpu).2.sp
  intm : w.intm = (execOp 0xF4EB (u.ctx bus) u.toCpu).2.intm

/-- RETED goes to the word on top of the stack and takes that word only. -/
theorem RetedRun.target (h : RetedRun g bus s u w) :
    w.pc16 = dataRead u.toCpu u.sp ∧ w.sp = u.sp + 1 := by
  have hexec : execOp (opAt u) (u.ctx bus) u.toCpu = _ :=
    (congrArg (execOp · (u.ctx bus) u.toCpu) h.opcode).trans (execOp_reted _ _)
  have hout : outcome bus u = .flow (.delayed (dataRead u.toCpu u.sp) 1) := by
    rw [outcome, hexec]
  have hcpu : cpuAfter bus u =
      { u.toCpu with lkUsed := false, sp := u.sp + 1, st1 := clearBit u.st1 St1.intm } := by
    rw [cpuAfter, hexec]
  have hpend := pending_of_transfer h.decoded h.once (by rw [hcpu]; exact h.block) hout h.unslotted
  obtain ⟨hpc, hsp⟩ := h.slots.target hpend
  exact ⟨hpc, by rw [hsp, hpend.sp, hcpu]⟩

/-- The slots have left XPC and INTM as RETED left them. -/
def SlotsKeep (u w : State) : Prop := w.xpc = u.xpc ∧ w.intm = false

/-- RETE pops two words where the top one is at most 3. -/
theorem RetedRun.agrees_iff (h : RetedRun g bus s u w) :
    AgreesWithRete bus u w ↔ 3 < dataRead u.toCpu u.sp ∧ SlotsKeep u w := by
  obtain ⟨hpc, hsp⟩ := h.target
  by_cases htop : dataRead u.toCpu u.sp ≤ 3
  · have hrete := rete_far (c := u.ctx bus) htop
    constructor
    · intro hagree
      have hmove : w.sp = u.sp + 1 + 1 := by rw [hagree.sp, hrete]
      rw [hsp] at hmove
      bv_omega
    · intro hkeep
      exact absurd hkeep.1 (BitVec.not_lt.mpr htop)
  · have hrete := rete_near (c := u.ctx bus) htop
    constructor
    · intro hagree
      refine ⟨BitVec.not_le.mp htop, ?_, ?_⟩
      · rw [hagree.xpc, hrete]
      · rw [hagree.intm, hrete]
        exact bitSet_clearBit_self _ _
    · rintro ⟨-, hxpc, hintm⟩
      refine ⟨?_, ?_, ?_, ?_⟩
      · rw [hrete, hpc]
      · rw [hrete, hxpc]
      · rw [hrete, hsp]
      · rw [hrete, hintm]
        exact (bitSet_clearBit_self _ _).symm

/-! ### On the frame of an interrupt -/

/-- An interrupt entry from `s`: the core behind it, the return address pushed, and whether the
path pushes XPC always. -/
inductive EntryFrom (g : Gates) (bus : Bus) (s : State) : State → Word → Bool → Prop where
  | level {t : Taken} : (levelCheck g bus s).2 = some t →
      EntryFrom g bus s (levelCheck g bus s).1 s.pc16 false
  | replay {t : Taken} : (replay bus s).2 = some t → EntryFrom g bus s (replay bus s).1 s.pc16 true
  | request {vec bit : Nat} {t : Taken} : (interruptEx bus s vec bit).2 = some t →
      EntryFrom g bus s (interruptEx bus s vec bit).1 s.resumePc true

variable {always : Bool}

theorem pushFrame_top (c : Ctx) {u : Cpu} (ret : Word) (h : FrameInMemory u always) :
    isCell (pushFrame c u ret always).sp ∧
    dataRead (pushFrame c u ret always) (pushFrame c u ret always).sp =
      if always ∨ u.xpc ≠ 0 then u.xpc else ret := by
  by_cases htwo : always ∨ u.xpc ≠ 0
  · obtain ⟨hsp, htop, -⟩ := pushFrame_two c ret h htwo
    rw [hsp, htop, if_pos htwo]
    exact ⟨h.2 htwo, rfl⟩
  · obtain ⟨hsp, hret⟩ := pushFrame_one c ret h htwo
    rw [hsp, hret, if_neg htwo]
    exact ⟨h.1, rfl⟩

theorem enter_top {c : Ctx} {r : State} {vec bit : Nat} {ret : Word}
    (hsp : r.sp = s.sp) (hxpc : r.xpc = s.xpc) (h : FrameInMemory s.toCpu always) :
    dataRead (enter c r vec bit ret always).toCpu (enter c r vec bit ret always).sp =
      if always ∨ s.xpc ≠ 0 then s.xpc else ret := by
  have hmem : FrameInMemory { r.toCpu with ifr := clearBit r.ifr bit } always := h.of_eq hsp hxpc
  obtain ⟨hcell, htop⟩ := pushFrame_top c ret hmem
  rw [← hxpc, ← show _ = _ from htop, dataRead_cell hcell]
  exact dataRead_cell hcell

/-- On a frame in memory the top word is above 3 exactly when it is the return address alone. -/
theorem EntryFrom.top_iff {e : State} {ret : Word}
    (h : EntryFrom g bus s e ret always) (hxpc : s.xpc ≤ 3) (hret : 4 ≤ ret)
    (hmem : FrameInMemory s.toCpu always) :
    3 < dataRead e.toCpu e.sp ↔ always = false ∧ s.xpc = 0 := by
  have htop : dataRead e.toCpu e.sp = if always ∨ s.xpc ≠ 0 then s.xpc else ret := by
    cases h with
    | level ht =>
      obtain ⟨-, -, hpre, henter⟩ := levelCheck_eq_some ht
      obtain ⟨ifr, hifr⟩ := dmaLevel_eq bus s
      rw [henter, hpre, hifr]
      exact enter_top rfl rfl hmem
    | replay ht =>
      rw [(replay_eq_some ht).2.2]
      exact enter_top rfl rfl hmem
    | request ht =>
      obtain ⟨-, -, -, idle, henter⟩ := interruptEx_eq_some ht
      rw [henter]
      exact enter_top rfl rfl hmem
  rw [htop]
  split
  · rename_i htwo
    refine ⟨fun hlt => absurd hlt (BitVec.not_lt.mpr hxpc), ?_⟩
    rintro ⟨hone, hzero⟩
    rcases htwo with htwo | htwo
    · exact absurd (hone.symm.trans htwo) Bool.false_ne_true
    · exact absurd hzero htwo
  · rename_i hone
    push Not at hone
    refine ⟨fun _ => ⟨Bool.eq_false_iff.mpr hone.1, hone.2⟩, fun _ => ?_⟩
    bv_omega

/-- RETED ends where RETE does, on the frame of an interrupt kept by its service routine, exactly
when the word on top of the stack is above 3 and the slots keep XPC and INTM. With the frame in
ordinary memory, the word is above 3 exactly when the level check pushed it on page 0. -/
theorem reted_agrees_iff (hxpc : s.xpc ≤ 3) {e v : State} {ret : Word} {always : Bool}
    (hentry : EntryFrom g bus s e ret always) (hret : 4 ≤ ret) {bus' : Bus}
    (hrun : RetedRun g bus' v u w) (hkept : FrameKept s.sp e.toCpu u.toCpu) :
    (AgreesWithRete bus' u w ↔ 3 < dataRead e.toCpu e.sp ∧ SlotsKeep u w) ∧
    (FrameInMemory s.toCpu always →
      (AgreesWithRete bus' u w ↔ (always = false ∧ s.xpc = 0) ∧ SlotsKeep u w)) := by
  have htop : dataRead u.toCpu u.sp = dataRead e.toCpu e.sp := by
    rw [hkept.sp_eq]
    exact hkept.words _ (.inr rfl)
  have hiff := hrun.agrees_iff
  rw [htop] at hiff
  refine ⟨hiff, fun hmem => ?_⟩
  rw [hiff, hentry.top_iff hxpc hret hmem]

def beforeLevel : State :=
  (core ⟨true⟩).final (boot dmaProgram) [.pass .quiet, .pass .quiet, .poke 0x00F8 0xF6EB]

def inService : State := (levelCheck ⟨true⟩ .dmaUp beforeLevel).1

/-- The state in which the next turn decodes, if nothing is entered. -/
def decoded (s : State) : State := (levelCheck ⟨true⟩ .quiet (prepare (replay .quiet s).1)).1

def serviced (n : Nat) : State := (core ⟨true⟩).final inService (List.replicate n (.pass .quiet))

theorem retedRun_nops : RetedRun ⟨true⟩ .quiet inService (decoded inService) (serviced 3) := by
  have hslot : ∀ k, k = 1 ∨ k = 2 →
      SlotTurn ⟨true⟩ .quiet (serviced k) (decoded (serviced k)) 1 := by
    rintro k (rfl | rfl)
    all_goals
      exact ⟨if_pos (by decide +kernel), by decide +kernel, by decide +kernel, by decide,
        by decide +kernel, by decide +kernel⟩
  exact ⟨if_pos (by decide +kernel), by decide +kernel, by decide +kernel, by decide +kernel,
    by decide +kernel, .more (hslot 1 (.inl rfl)) (.last (hslot 2 (.inr rfl)))⟩

theorem reted_agrees_iff_level :
    beforeLevel.xpc ≤ 3 ∧ 4 ≤ beforeLevel.pc16 ∧
      AgreesWithRete .quiet (decoded inService) (serviced 3) := by
  obtain ⟨t, ht⟩ := Option.isSome_iff_exists.mp
    (show (levelCheck ⟨true⟩ .dmaUp beforeLevel).2.isSome = true by decide +kernel)
  have hkept : FrameKept beforeLevel.sp inService.toCpu (decoded inService).toCpu := by
    refine ⟨by decide +kernel, by decide +kernel, ?_⟩
    rintro a (rfl | rfl) <;> decide +kernel
  refine ⟨by decide +kernel, by decide +kernel, ?_⟩
  exact (reted_agrees_iff (by decide +kernel) (.level ht) (by decide +kernel) retedRun_nops
    hkept).1.mpr ⟨by decide +kernel, by decide +kernel, by decide +kernel⟩

/-- RSBX INTM, and a return at vector 28. -/
def returnsBy (ret : Word) : List Word := [0xF6BB] ++ List.replicate 111 0xF495 ++ [ret]

/-- On a frame with an XPC word RETED goes to address 0, the page it was on, and leaves the
return address on the stack; RETE goes back. -/
theorem reted_takes_xpc_for_pc :
    let before := (core ⟨false⟩).final (boot (returnsBy 0xF6EB)) [.pass .quiet]
    let reted := (core ⟨false⟩).final before
      ([.request .quiet 28 12] ++ List.replicate 3 (.pass .quiet))
    let rete := (core ⟨false⟩).final (boot (returnsBy 0xF4EB))
      [.pass .quiet, .request .quiet 28 12, .pass .quiet]
    (before.pc = 0xFF81 ∧ before.xpc = 0) ∧ (reted.pc = 0 ∧ reted.sp = before.sp - 1) ∧
      rete.pc = 0xFF81 ∧ rete.sp = before.sp := by
  decide +kernel

end Qosmo.C54x
