import Qosmo.RheaDma.Basic

/-!
# Qosmo.RheaDma.Wf

What the receive channel keeps between calls, in every mode and whatever the calls.

AAD and ALGTH are twelve bits, so a page and its twin end far below the end of the API
window: the clipping and out-of-window exits of a request are dead (`requested_rxRequest`).
IDLE is cleared while a request runs and set on each of its exits.
-/

namespace Qosmo

open RheaDma

/-! ### The control register -/

namespace RheaDma.Channel

variable (c : Channel)

@[simp] theorem flags_abort : c.abort.flags = c.flags := by
  simp [flags, Flags.ofCtrl, abort, bitSet, ctrlRheaError]

@[simp] theorem flags_running : c.running.flags = { c.flags with idle := false } := by
  simp [flags, Flags.ofCtrl, running, bitSet, ctrlIdle]

@[simp] theorem flags_rest : c.rest.flags = { c.flags with idle := true } := by
  simp [flags, Flags.ofCtrl, rest, bitSet, ctrlIdle]

@[simp] theorem flags_turn (got : Nat) :
    (c.turn got).flags = { c.flags with currentPage := !c.flags.currentPage } := by
  simp [flags, Flags.ofCtrl, turn, bitSet, ctrlCurrentPage]

@[simp] theorem flags_done : c.done.flags = { c.flags with idle := true, irqState := true } := by
  simp [flags, Flags.ofCtrl, done, bitSet, ctrlIrqState, ctrlIdle, ctrlDmaStart]

@[simp] theorem flags_disarm : c.disarm.flags = { c.flags with enable := false } := by
  simp [flags, Flags.ofCtrl, disarm, bitSet, ctrlEnable]

theorem flags_ack (reg : Reg) : ∃ irq, (c.ack reg).flags = { c.flags with irqState := irq } := by
  cases reg with
  | ctrl =>
    refine ⟨false, ?_⟩
    simp [flags, Flags.ofCtrl, ack, bitSet, ctrlIrqState, ctrlRheaError]
  | _ => exact ⟨c.flags.irqState, rfl⟩

/-- Software sets every bit of CTRL but IDLE and IRQ_STATE. -/
theorem flags_putCtrl (v : Word) : (c.put v .ctrl).flags
    = { Flags.ofCtrl v with idle := c.flags.idle, irqState := c.flags.irqState } := by
  simp [flags, Flags.ofCtrl, put, bitSet, ctrlRoMask, ctrlIdle, ctrlIrqState, ctrlRheaError]

end RheaDma.Channel

namespace Reception

variable {r r' r'' : Reception}

@[simp] theorem chan_setChan (r : Reception) (c : Channel) : (r.setChan c).chan = c := by
  simp [setChan, chan, RheaDma.set]

@[simp] theorem setChan_skip (r : Reception) (c : Channel) :
    (r.setChan c).dma.skipPending = r.dma.skipPending := rfl

/-! ### What holds between calls, in every mode -/

/-- What a transfer leaves alone. -/
structure SameSetup (r r' : Reception) : Prop where
  aad : r'.chan.aad = r.chan.aad
  algth : r'.chan.algth = r.chan.algth
  skip : r'.dma.skipPending = r.dma.skipPending

theorem SameSetup.trans (h : SameSetup r r') (h' : SameSetup r' r'') : SameSetup r r'' :=
  ⟨h'.aad.trans h.aad, h'.algth.trans h.algth, h'.skip.trans h.skip⟩

theorem SameSetup.setChan {c : Channel} (haad : c.aad = r.chan.aad)
    (halgth : c.algth = r.chan.algth) : SameSetup r (r.setChan c) := by
  refine ⟨?_, ?_, rfl⟩ <;> rw [chan_setChan] <;> assumption

/-- Between calls the channel is idle and its two lengths are twelve bits; with the gate
unset nothing is ever left to skip. -/
structure Wf (r : Reception) : Prop where
  idle : r.chan.flags.idle = true
  aad_lt : r.chan.aad.toNat < 4096
  algth_lt : r.chan.algth.toNat < 4096
  skip : r.dma.skipPending = 0

theorem init_wf (api : Option (Nat → Word)) : (init api).Wf := by
  have hchan : (init api).chan = ⟨0, 0, 0, 0, ctrlReset, 0⟩ := rfl
  refine ⟨?_, ?_, ?_, rfl⟩ <;> rw [hchan] <;> decide

theorem Wf.of_same (h : r.Wf) (hsame : SameSetup r r') (hidle : r'.chan.flags.idle) :
    r'.Wf := by
  refine ⟨hidle, ?_, ?_, hsame.skip.trans h.skip⟩
  · rw [hsame.aad]
    exact h.aad_lt
  · rw [hsame.algth]
    exact h.algth_lt

theorem Wf.of_dma (h : r.Wf) (hdma : r'.dma = r.dma) : r'.Wf := by
  have hchan : r'.chan = r.chan := by rw [chan, hdma, chan]
  refine ⟨?_, ?_, ?_, ?_⟩
  · rw [hchan]
    exact h.idle
  · rw [hchan]
    exact h.aad_lt
  · rw [hchan]
    exact h.algth_lt
  · rw [hdma]
    exact h.skip

theorem Wf.dstIdx_lt (h : r.Wf) : r.chan.dstIdx < 2048 := by
  have hle : (r.chan.aad &&& 0x0FFF).toNat ≤ r.chan.aad.toNat := by
    rw [BitVec.toNat_and]
    exact Nat.and_le_left
  have := h.aad_lt
  unfold Channel.dstIdx
  omega

theorem Wf.pageWords_lt (h : r.Wf) : r.chan.pageWords < 2048 := by
  have := h.algth_lt
  unfold Channel.pageWords
  omega

theorem pageLoop_same (oneShot : Bool) (dst max k : Nat) (r : Reception) :
    SameSetup r (pageLoop oneShot dst max k r).1 := by
  induction k generalizing r with
  | zero => exact ⟨rfl, rfl, rfl⟩
  | succ k ih =>
    have hput : SameSetup r (r.putPage dst max (r.rif.drain max).1 (r.rif.drain max).2) := by
      refine ⟨?_, ?_, rfl⟩ <;> rw [putPage, chan_setChan] <;> rfl
    rw [pageLoop]
    split
    · exact ⟨rfl, rfl, rfl⟩
    · dsimp only
      split
      · exact ⟨rfl, rfl, rfl⟩
      · split
        · exact hput
        · exact hput.trans (ih _)

theorem complete_same (r : Reception) : SameSetup r r.complete.1 := by
  unfold complete
  dsimp only
  split
  · have hclosed : SameSetup r (r.setChan r.chan.done.disarm) := .setChan rfl rfl
    exact ⟨hclosed.aad, hclosed.algth, hclosed.skip⟩
  · exact .setChan rfl rfl

theorem complete_idle (r : Reception) : r.complete.1.chan.flags.idle := by
  unfold complete
  dsimp only
  split
  · show (r.setChan r.chan.done.disarm).chan.flags.idle
    simp
  · simp

theorem Wf.transferPages (h : r.Wf) (oneShot : Bool) (dst max : Nat) :
    ((r.setChan r.chan.running).transferPages oneShot dst max).1.Wf := by
  have hrun : SameSetup r (r.setChan r.chan.running) := .setChan rfl rfl
  have hloop := hrun.trans (pageLoop_same oneShot dst max 64 (r.setChan r.chan.running))
  unfold Reception.transferPages
  dsimp only
  split
  · exact h.of_same (hloop.trans (.setChan rfl rfl)) (by simp)
  · exact h.of_same (hloop.trans (complete_same _)) (complete_idle _)

/-- What a request does: it is refused, at most with RHEA_ERROR; it waits, both pages being the
DSP's; or it moves whole pages. AAD and ALGTH are too short for the other exits. -/
inductive Requested (r : Reception) : Reception × List Obs → Prop
  | refused {c : Channel} : c = r.chan ∨ c = r.chan.abort → Requested r (r.setChan c, [])
  | held : Requested r (r.setChan r.chan.running.rest, [])
  | moved : (r.chan.flags.oneShot = false → r.chan.flags.irqState = false) →
      Requested r ((r.setChan r.chan.running).transferPages r.chan.flags.oneShot r.chan.dstIdx
        r.chan.pageWords)

/-- There is nothing to skip. -/
theorem requested_transfer (hskip : r.dma.skipPending = 0) :
    Requested r (r.transfer r.chan.dstIdx r.chan.pageWords) := by
  have hset : (r.setChan r.chan.running).setChan r.chan.running.rest
      = r.setChan r.chan.running.rest := by
    simp [setChan, RheaDma.set]
  cases hone : r.chan.flags.oneShot with
  | true => simpa [transfer, hone] using Requested.moved (r := r) (by simp [hone])
  | false =>
    cases hirq : r.chan.flags.irqState with
    | true => simpa [transfer, hone, hirq, hset] using Requested.held (r := r)
    | false => simpa [transfer, hone, hirq, hskip] using Requested.moved (r := r) fun _ => hirq

theorem requested_rxRequest (h : r.Wf) (s : Bool) :
    Requested { r with rdDsp := r.rdDsp || s } (r.rxRequest s) := by
  have hdst := h.dstIdx_lt
  have hwords := h.pageWords_lt
  have hclip : ¬ apiSize < r.chan.dstIdx + r.chan.pageWords := by unfold apiSize; omega
  have hcap : min r.chan.pageWords 4096 = r.chan.pageWords := by omega
  have hself : ({ r with rdDsp := r.rdDsp || s } : Reception).setChan r.chan
      = { r with rdDsp := r.rdDsp || s } := by
    simp [setChan, RheaDma.set, chan]
  have hnone := Requested.refused (r := { r with rdDsp := r.rdDsp || s }) (.inl rfl)
  rw [show Reception.chan { r with rdDsp := r.rdDsp || s } = r.chan from rfl, hself] at hnone
  unfold rxRequest
  dsimp only
  rw [hcap, if_neg hclip]
  split
  · exact hnone
  · split
    · exact hnone
    · split
      · exact .refused (.inr rfl)
      · split
        · exact .refused (.inr rfl)
        · exact requested_transfer (r := { r with rdDsp := r.rdDsp || s }) h.skip

theorem Wf.requested {q : Reception × List Obs} (h : r.Wf) (hreq : Requested r q) : q.1.Wf := by
  cases hreq with
  | refused hc =>
    rcases hc with rfl | rfl <;> exact h.of_same (.setChan rfl rfl) (by simp [h.idle])
  | held => exact h.of_same (.setChan rfl rfl) (by simp)
  | moved => exact h.transferPages _ _ _

theorem Wf.rxRequest (h : r.Wf) (s : Bool) : (r.rxRequest s).1.Wf := by
  have hdsp : ({ r with rdDsp := r.rdDsp || s } : Reception).Wf := h.of_dma rfl
  exact hdsp.requested (requested_rxRequest h s)

/-- The pump does nothing, or asks for the pages itself. -/
theorem pump_cases (r : Reception) (s : Bool) :
    r.pump s = ({ r with rdDsp := r.rdDsp || s }, []) ∨
      r.pump s = ({ r with rdDsp := r.rdDsp || s } : Reception).rxRequest (r.rdDsp || s) := by
  unfold pump
  dsimp only
  split_ifs
  all_goals first
    | exact .inl rfl
    | exact .inr rfl

theorem Wf.pump (h : r.Wf) (s : Bool) : (r.pump s).1.Wf := by
  have hdsp : ({ r with rdDsp := r.rdDsp || s } : Reception).Wf := h.of_dma rfl
  rcases pump_cases r s with heq | heq
  · rw [heq]
    exact hdsp
  · rw [heq]
    exact hdsp.rxRequest _

theorem Wf.burst (h : r.Wf) (s : Bool) (w : List Word) : (r.burst s w).1.Wf := by
  have hrif : (r.arrive w).Wf := h.of_dma rfl
  unfold Reception.burst
  split
  · exact h
  · dsimp only
    split
    · exact hrif.rxRequest s
    · exact hrif

/-- What an access to the bank does to the receive channel: nothing, or what the access to
one of its registers does. -/
theorem ch_set (d : RheaDma) (n : Nat) (c : Channel) :
    (d.set n c).ch rx = if n = rx then c else d.ch rx := by
  show Function.update d.ch n c rx = _
  by_cases hn : n = rx
  · rw [if_pos hn, hn, Function.update_self]
  · rw [if_neg hn, Function.update_of_ne (Ne.symm hn)]

theorem read_cases (d : RheaDma) (off : Nat) :
    (d.read off).1.skipPending = d.skipPending ∧
      ((d.read off).1.ch rx = d.ch rx ∨ ∃ reg, (d.read off).1.ch rx = (d.ch rx).ack reg) := by
  unfold RheaDma.read
  split
  · exact ⟨rfl, .inl rfl⟩
  · split
    · exact ⟨rfl, .inl rfl⟩
    · split
      · rename_i n reg _
        refine ⟨rfl, ?_⟩
        rw [ch_set]
        by_cases hn : n = rx
        · rw [if_pos hn, hn]
          exact .inr ⟨reg, rfl⟩
        · rw [if_neg hn]
          exact .inl rfl
      · exact ⟨rfl, .inl rfl⟩

theorem write_cases (d : RheaDma) (off : Nat) (v : Word) :
    ((d.write off v).skipPending = d.skipPending ∨ (d.write off v).skipPending = armSkipWords) ∧
      ((d.write off v).ch rx = d.ch rx ∨
        ∃ reg, decode off = some (rx, reg) ∧ (d.write off v).ch rx = (d.ch rx).put v reg) := by
  unfold RheaDma.write
  split
  · exact ⟨.inl rfl, .inl rfl⟩
  · split
    · exact ⟨.inl rfl, .inl rfl⟩
    · split
      · rename_i n reg hdecode
        refine ⟨?_, ?_⟩
        · dsimp only
          split
          · exact .inr rfl
          · exact .inl rfl
        · show (d.set n ((d.ch n).put v reg)).ch rx = d.ch rx ∨
            ∃ reg', _ ∧ (d.set n ((d.ch n).put v reg)).ch rx = (d.ch rx).put v reg'
          rw [ch_set]
          by_cases hn : n = rx
          · rw [if_pos hn, hn]
            rw [hn] at hdecode
            exact .inr ⟨reg, hdecode, rfl⟩
          · rw [if_neg hn]
            exact .inl rfl
      · exact ⟨.inl rfl, .inl rfl⟩

theorem ack_setup (c : Channel) (reg : Reg) :
    (c.ack reg).aad = c.aad ∧ (c.ack reg).algth = c.algth := by
  cases reg <;> exact ⟨rfl, rfl⟩

theorem Wf.read (h : r.Wf) (off : Nat) : ({ r with dma := (r.dma.read off).1 } : Reception).Wf := by
  obtain ⟨hskip, hch | ⟨reg, hch⟩⟩ := read_cases r.dma off
  · refine h.of_same ⟨congrArg Channel.aad hch, congrArg Channel.algth hch, hskip⟩ ?_
    show ((r.dma.read off).1.ch rx).flags.idle
    rw [hch]
    exact h.idle
  · obtain ⟨haad, halgth⟩ := ack_setup r.chan reg
    refine h.of_same ⟨?_, ?_, hskip⟩ ?_
    · exact (congrArg Channel.aad hch).trans haad
    · exact (congrArg Channel.algth hch).trans halgth
    · obtain ⟨irq, hack⟩ := r.chan.flags_ack reg
      show ((r.dma.read off).1.ch rx).flags.idle
      rw [hch]
      exact (congrArg Flags.idle hack).trans h.idle

theorem Wf.write (h : r.Wf) (off : Nat) (v : Word) :
    ({ r with dma := r.dma.write off v } : Reception).Wf := by
  obtain ⟨hskip, hch⟩ := write_cases r.dma off v
  have hskip : (r.dma.write off v).skipPending = 0 := hskip.elim (·.trans h.skip) id
  have hmask : (v &&& 0x0FFF).toNat < 4096 := by
    rw [BitVec.toNat_and]
    exact Nat.lt_of_le_of_lt Nat.and_le_right (by decide)
  rcases hch with hch | ⟨reg, -, hch⟩
  · refine ⟨?_, ?_, ?_, hskip⟩ <;> show _ <;> simp only [chan, hch]
    · exact h.idle
    · exact h.aad_lt
    · exact h.algth_lt
  · refine ⟨?_, ?_, ?_, hskip⟩ <;> simp only [chan, hch]
    · cases reg with
      | ctrl =>
        rw [Channel.flags_putCtrl]
        exact h.idle
      | _ => exact h.idle
    · cases reg with
      | aad => exact hmask
      | _ => exact h.aad_lt
    · cases reg with
      | algth => exact hmask
      | _ => exact h.algth_lt

theorem step_wf (h : r.Wf) (e : Event) : (r.step e).1.Wf := by
  cases e with
  | burst s w => exact h.burst s w
  | rxRequest s => exact h.rxRequest s
  | pump s => exact h.pump s
  | read off => exact h.read off
  | write off v => exact h.write off v
  | portr pa | portw pa val => exact h.of_dma rfl

end Reception

end Qosmo
