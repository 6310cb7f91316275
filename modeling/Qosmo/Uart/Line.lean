import Qosmo.Uart.Fifo

/-!
# Qosmo.Uart.Line

The interrupt line of the serial port and IIR are cached: `calypso_uart_update_irq`
computes them from IER, LSR, the pending "TX empty", the pending wake-up and SCR, and
every call that changes one of these has to run it again.

`step_cases` says once what a call does to the cache: it recomputes it, it touches none of
its inputs, or it is a read of LSR, which clears OE and recomputes nothing. Only the last
one can leave the cache behind, and `Hides` says when it does.
-/

namespace Qosmo.Uart

variable {s s' : Uart}

/-- IIR and the line are what `calypso_uart_update_irq` would compute now. -/
structure Settled (s : Uart) : Prop where
  iir : s.iir = s.updateIrq.iir
  irq : s.irq = s.updateIrq.irq

theorem reset_settled (label : Label) : (reset label).Settled := by
  constructor <;> simp [reset, updateIrq, bitSet]

/-- Neither the cache nor anything it is computed from has changed. -/
structure SameLine (s s' : Uart) : Prop where
  ier : s'.ier = s.ier
  lsr : s'.lsr = s.lsr
  thrEmptyPending : s'.thrEmptyPending = s.thrEmptyPending
  wakeupPending : s'.wakeupPending = s.wakeupPending
  scr : s'.scr = s.scr
  iir : s'.iir = s.iir
  irq : s'.irq = s.irq

theorem SameLine.refl (s : Uart) : SameLine s s := ⟨rfl, rfl, rfl, rfl, rfl, rfl, rfl⟩

theorem SameLine.settled (h : SameLine s s') (hs : s.Settled) : s'.Settled := by
  have hier := h.ier
  have hlsr := h.lsr
  constructor
  · rw [h.iir, hs.iir]
    simp only [updateIrq, hier, hlsr, h.thrEmptyPending]
  · rw [h.irq, hs.irq]
    simp only [updateIrq, hier, hlsr, h.thrEmptyPending, h.wakeupPending, h.scr]

/-! ### What a call does to the cache -/

/-- The cache was recomputed, or it and its inputs were left alone. -/
def LineKept (s s' : Uart) : Prop := (∃ t : Uart, s' = t.updateIrq) ∨ SameLine s s'

theorem LineKept.settled (h : LineKept s s') (hs : s.Settled) : s'.Settled := by
  rcases h with ⟨t, rfl⟩ | h
  · exact ⟨rfl, rfl⟩
  · exact h.settled hs

theorem lineKept_update (s t : Uart) : LineKept s t.updateIrq := .inl ⟨t, rfl⟩

theorem lineKept_refl (s : Uart) : LineKept s s := .inr (.refl s)

theorem fifoPush_count_pos (s : Uart) (b : Byte) : 0 < (s.fifoPush b).1.rx.count := by
  unfold fifoPush
  split
  · rename_i hfull
    exact Nat.lt_of_lt_of_le (by decide) hfull
  · exact Nat.succ_pos _

variable {buf : List Byte}

variable (s)

theorem pushAll_count_pos (h : buf ≠ []) : 0 < (s.pushAll buf).1.rx.count := by
  cases buf with
  | nil => exact absurd rfl h
  | cons b bs => exact (fifoPush_count_pos s b).trans_le (pushAll_count_le _ bs)

theorem injectRaw_line (buf : List Byte) : LineKept s (s.injectRaw buf).1 := by
  simp only [injectRaw]
  split
  · exact lineKept_update s _
  · rename_i hcount
    -- nothing waits, so nothing was pushed and OE cannot have been set
    by_cases hbuf : buf = []
    · subst hbuf
      exact lineKept_refl s
    · exact absurd (pushAll_count_pos s hbuf) hcount

theorem receive_line (buf : List Byte) : LineKept s (s.receive buf).1 := by
  unfold receive
  split
  · exact lineKept_update s _
  · dsimp only
    split
    · exact .inr ⟨rfl, rfl, rfl, rfl, rfl, rfl, rfl⟩
    · rcases injectRaw_line (s.loaded (s.romload.filter buf).1) (s.romload.filter buf).2.1
        with h | h
      · exact .inl h
      · exact .inr ⟨h.ier, h.lsr, h.thrEmptyPending, h.wakeupPending, h.scr, h.iir, h.irq⟩
  · exact lineKept_update s _

theorem readIir_line : LineKept s s.readIir := by
  unfold readIir
  split
  · split
    · exact lineKept_update s _
    · exact .inr ⟨rfl, rfl, rfl, rfl, rfl, rfl, rfl⟩
  · exact lineKept_refl s

theorem readReg_line {r : Reg} (hr : r ≠ .lsr) : LineKept s (s.readReg r).1 := by
  cases r with
  | lsr => exact absurd rfl hr
  | rbrThr =>
    simp only [readReg]
    split
    · exact lineKept_refl s
    · exact lineKept_update s _
  | iirFcr =>
    simp only [readReg]
    split
    · exact lineKept_refl s
    · exact readIir_line s
  | ier | lcr | mcr | msr | spr | mdr1 | scr | ssr => exact lineKept_refl s

theorem writeReg_line (value : Byte) (r : Reg) : LineKept s (s.writeReg value r) := by
  cases r with
  | rbrThr | ier | iirFcr =>
    simp only [writeReg]
    split
    · exact .inr ⟨rfl, rfl, rfl, rfl, rfl, rfl, rfl⟩
    · exact lineKept_update s _
  | mcr | lsr | msr | spr =>
    simp only [writeReg]
    split <;> exact .inr ⟨rfl, rfl, rfl, rfl, rfl, rfl, rfl⟩
  | scr => exact lineKept_update s _
  | lcr | mdr1 | ssr => exact .inr ⟨rfl, rfl, rfl, rfl, rfl, rfl, rfl⟩

variable {s}

/-! ### The read of LSR -/

/-- Is this a read of LSR? With LCR = 0xBF the offset is that of XON2. -/
def readsLsr (s : Uart) : Event → Bool
  | .read offset => Reg.ofOffset offset == some .lsr && !s.confBf
  | _ => false

/-- LSR as its read leaves it. -/
def clearOe (s : Uart) : Uart := { s with lsr := s.lsr &&& ~~~0x02 }

/-- **What a call can do to the cache.** -/
theorem step_cases (s : Uart) (e : Event) :
    (s.readsLsr e = true ∧ (s.step e).1 = s.clearOe) ∨
      (s.readsLsr e = false ∧ LineKept s (s.step e).1) := by
  cases e with
  | receive buf => exact .inr ⟨rfl, receive_line s buf⟩
  | inject buf => exact .inr ⟨rfl, injectRaw_line s buf⟩
  | read offset =>
    cases hreg : Reg.ofOffset offset with
    | none =>
      refine .inr ⟨by simp [readsLsr, hreg], ?_⟩
      simpa [step, read, hreg] using lineKept_refl s
    | some r =>
      by_cases hr : r = .lsr
      · subst hr
        cases hbf : s.confBf with
        | true =>
          refine .inr ⟨by simp [readsLsr, hbf], ?_⟩
          simpa [step, read, hreg, readReg, hbf] using lineKept_refl s
        | false =>
          refine .inl ⟨by simp [readsLsr, hreg, hbf], ?_⟩
          simp [step, read, hreg, readReg, hbf, clearOe]
      · refine .inr ⟨by simp [readsLsr, hreg, hr], ?_⟩
        simpa [step, read, hreg] using readReg_line s hr
  | write offset value =>
    refine .inr ⟨rfl, ?_⟩
    cases hreg : Reg.ofOffset offset with
    | none => simpa [step, write, hreg] using lineKept_refl s
    | some r => simpa [step, write, hreg] using writeReg_line s value r
  | kickRx =>
    refine .inr ⟨rfl, ?_⟩
    simp only [step, kickRx]
    split
    · exact lineKept_update s s
    · exact lineKept_refl s
  | kickTx => exact .inr ⟨rfl, lineKept_update s s⟩
  | forceInit => exact .inr ⟨rfl, lineKept_update s _⟩
  | romloadPassthrough => exact .inr ⟨rfl, .inr ⟨rfl, rfl, rfl, rfl, rfl, rfl, rfl⟩⟩

/-- The read of LSR that hides an overrun: OE is set, its interrupt is enabled, and the
read clears the one and not the other. -/
def Hides (s : Uart) (e : Event) : Prop :=
  s.readsLsr e = true ∧ bitSet s.ier ierRxLine = true ∧ bitSet s.lsr lsrOe = true

instance decidableHides (s : Uart) (e : Event) : Decidable (Hides s e) :=
  inferInstanceAs (Decidable (_ ∧ _ ∧ _))

theorem oe_clearOe (s : Uart) : bitSet s.clearOe.lsr lsrOe = false := by
  simp [clearOe, bitSet, lsrOe]

/-- Clearing OE moves the cache's target exactly when OE was what it was computed from. -/
theorem clearOe_settled (hs : s.Settled) :
    s.clearOe.Settled ↔ ¬(bitSet s.ier ierRxLine ∧ bitSet s.lsr lsrOe) := by
  have hoe := oe_clearOe s
  have hdr : bitSet s.clearOe.lsr lsrDr = bitSet s.lsr lsrDr := dr_clearOe s.lsr
  have hiir : s.clearOe.iir = s.updateIrq.iir := hs.iir
  have hirq : s.clearOe.irq = s.updateIrq.irq := hs.irq
  constructor
  · rintro ⟨hfresh, -⟩ ⟨hline, hset⟩
    -- IIR still says "receiver line status"; nothing that could say it is left
    rw [hiir] at hfresh
    simp only [updateIrq, hoe, hdr, hline, hset] at hfresh
    revert hfresh
    generalize (bitSet s.clearOe.ier ierRxData && bitSet s.lsr lsrDr) = rxData
    generalize (bitSet s.clearOe.ier ierTxEmpty && s.clearOe.thrEmptyPending) = txEmpty
    cases rxData <;> cases txEmpty <;> simp
  · intro hnot
    have hline : (bitSet s.ier ierRxLine && bitSet s.lsr lsrOe) = false := by
      simpa [Bool.and_eq_false_iff, imp_iff_not_or] using hnot
    constructor
    · rw [hiir]
      simp only [updateIrq, hline]
      simp [clearOe, bitSet, lsrOe, lsrDr]
    · rw [hirq]
      simp only [updateIrq, hline]
      simp [clearOe, bitSet, lsrOe, lsrDr]

/-- **One call** keeps the cache fresh, but for the read that hides an overrun. -/
theorem step_settled (hs : s.Settled) (e : Event) : (s.step e).1.Settled ↔ ¬Hides s e := by
  rcases step_cases s e with ⟨hread, heq⟩ | ⟨hread, hkept⟩
  · rw [heq, clearOe_settled hs]
    simp [Hides, hread]
  · simp [Hides, hread, hkept.settled hs]

/-- **The cache of the line.** IIR and the line are fresh after every call of a run exactly
when no read of LSR in it hides an overrun. -/
theorem line_settled_iff (label : Label) (es : List Event) :
    (∀ es', es' <+: es → (machine.final (reset label) es').Settled) ↔
      machine.Along (fun s e => ¬Hides s e) (reset label) es :=
  Machine.invariant_iff (M := machine) (I := Settled) (fun _ e hs => step_settled hs e)
    (reset_settled label)

/-! ### An overrun read away -/

theorem oe_fifoPush (h : bitSet s.lsr lsrOe) (b : Byte) :
    bitSet (s.fifoPush b).1.lsr lsrOe := by
  unfold fifoPush
  split
  · simp [bitSet, lsrOe]
  · exact h

theorem oe_pushAll (h : bitSet s.lsr lsrOe) (buf : List Byte) :
    bitSet (s.pushAll buf).1.lsr lsrOe := by
  induction buf generalizing s with
  | nil => exact h
  | cons b bs ih => exact ih (oe_fifoPush h b)

/-- Bytes that do not all fit set OE. -/
theorem pushAll_overrun (hle : s.rx.count ≤ RxFifo.size)
    (h : RxFifo.size < s.rx.count + buf.length) : bitSet (s.pushAll buf).1.lsr lsrOe := by
  induction buf generalizing s with
  | nil =>
    rw [List.length_nil] at h
    omega
  | cons b bs ih =>
    rw [List.length_cons] at h
    by_cases hfull : RxFifo.size ≤ s.rx.count
    · refine oe_pushAll ?_ bs
      simp [fifoPush, hfull, bitSet, lsrOe]
    · have hcount : (s.fifoPush b).1.rx.count = s.rx.count + 1 := by
        simp [fifoPush, hfull, RxFifo.push]
      exact ih (by omega) (by omega)

/-- After an injection that overruns the FIFO, with the interrupt of OE enabled, the next
read of LSR hides the overrun. -/
theorem hides_of_overrun (hcount : s.rx.count ≤ RxFifo.size)
    (hlong : RxFifo.size < s.rx.count + buf.length) (hier : bitSet s.ier ierRxLine)
    (hlcr : s.confBf = false) : Hides (s.injectRaw buf).1 (.read 0x05) := by
  have hoe := pushAll_overrun hcount hlong
  obtain ⟨rx, lsr, hpush⟩ := pushAll_eq s buf
  have hbuf : buf ≠ [] := by
    rintro rfl
    exact absurd hlong (Nat.not_lt.mpr hcount)
  have hwaits := pushAll_count_pos s hbuf
  simp only [injectRaw]
  rw [if_pos hwaits]
  refine ⟨?_, ?_, ?_⟩
  · show (true && !((s.pushAll buf).1.lcr == lcrConfBf)) = true
    rw [hpush, Bool.true_and, Bool.not_eq_true']
    exact hlcr
  · show bitSet (s.pushAll buf).1.ier ierRxLine
    rw [hpush]
    exact hier
  · show bitSet ((s.pushAll buf).1.lsr ||| 0x01) lsrOe
    rw [← hoe]
    simp [bitSet, lsrOe]

/-- OE set by an overrun and read away: the line stays up and IIR says "receiver line
status", with nothing left that asks for them. -/
theorem overrun_leaves_line (hlong : RxFifo.size < buf.length) :
    ¬(machine.final (reset .irda) [.write 0x01 0x04, .inject buf, .read 0x05]).Settled := by
  have hfirst : ((reset .irda).write 0x01 0x04).Settled :=
    (step_settled (reset_settled .irda) (.write 0x01 0x04)).mpr (by decide)
  have hhides : Hides (((reset .irda).write 0x01 0x04).injectRaw buf).1 (.read 0x05) := by
    refine hides_of_overrun (by decide) ?_ (by decide) (by decide)
    exact Nat.lt_of_lt_of_le hlong (Nat.le_add_left _ _)
  have hsecond := (injectRaw_line _ buf).settled hfirst
  exact fun hsettled => (step_settled hsecond (.read 0x05)).mp hsettled hhides

/-- One byte more than the FIFO holds. -/
theorem lsr_read_leaves_line :
    ¬(machine.final (reset .irda)
      [.write 0x01 0x04, .inject (List.replicate 8193 0x00), .read 0x05]).Settled :=
  overrun_leaves_line (by rw [List.length_replicate]; decide)

end Qosmo.Uart
