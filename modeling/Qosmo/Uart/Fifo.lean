import Qosmo.Uart.Basic

/-!
# Qosmo.Uart.Fifo

The receive FIFO is a bounded queue.

The indices, the count and LSR.DR are updated in different functions by several
producers. `RxFifo.Wf` says what the indices mean, `Uart.Wf` adds that DR tells whether
anything waits. Most calls leave both alone (`SameRx`); the others push, pop or reset, and
each is checked once against the list `RxFifo.contents`:

* `pushAll_spec`: any producer, whatever the room;
* `queued_read`: the guest takes the front byte;
* `queued_write`: the guest resets the FIFO.

`queued_step` puts the calls together, and the queue rule of the library lifts it to runs.
-/

namespace Qosmo

/-! ### The circular array -/

namespace RxFifo

variable {f : RxFifo}

/-- What the indices mean: `head` is `count` places after `tail`. -/
structure Wf (f : RxFifo) : Prop where
  tail_lt : f.tail < size
  count_le : f.count ≤ size
  head_eq : f.head = (f.tail + f.count) % size

theorem empty_wf : empty.Wf := ⟨by decide, by decide, rfl⟩

@[simp] theorem contents_length (f : RxFifo) : f.contents.length = f.count := Ring.length_window

theorem contents_eq_nil_iff : f.contents = [] ↔ f.count = 0 := Ring.window_eq_nil_iff

theorem reset_wf (f : RxFifo) : f.reset.Wf := ⟨by simp [reset, size], by simp [reset], rfl⟩

theorem Wf.push (h : f.Wf) (hroom : f.count < size) (b : Byte) : (f.push b).Wf := by
  refine ⟨h.tail_lt, hroom, ?_⟩
  show (f.head + 1) % size = (f.tail + (f.count + 1)) % size
  rw [h.head_eq, Nat.mod_add_mod, Nat.add_assoc]

theorem Wf.push_contents (h : f.Wf) (hroom : f.count < size) (b : Byte) :
    (f.push b).contents = f.contents ++ [b] := by
  show Ring.window (Function.update f.cells f.head b) size f.tail (f.count + 1) = _
  rw [h.head_eq]
  exact Ring.window_push hroom b

theorem Wf.pop (h : f.Wf) : f.pop.1.Wf := by
  unfold RxFifo.pop
  split
  · exact h
  · rename_i hne
    refine ⟨Nat.mod_lt _ (by decide), ?_, ?_⟩
    · exact (Nat.sub_le _ _).trans h.count_le
    · show f.head = ((f.tail + 1) % size + (f.count - 1)) % size
      rw [h.head_eq, Nat.mod_add_mod]
      congr 1
      omega

theorem Wf.pop_contents (h : f.Wf) (hne : 0 < f.count) :
    f.contents = f.pop.2 :: f.pop.1.contents := by
  obtain ⟨n, hn⟩ : ∃ n, f.count = n + 1 := ⟨f.count - 1, by omega⟩
  unfold RxFifo.pop
  rw [if_neg (by omega)]
  show Ring.window f.cells size f.tail f.count
    = f.cells f.tail :: Ring.window f.cells size ((f.tail + 1) % size) (f.count - 1)
  rw [hn]
  exact Ring.window_pop h.tail_lt

theorem pop_of_empty (h : f.count = 0) : f.pop.1 = f := by
  unfold RxFifo.pop
  rw [if_pos h]

end RxFifo

namespace Uart

variable {s s' : Uart}

/-- The port's own invariant: the indices mean what they should, and DR is set exactly
when bytes wait. -/
structure Wf (s : Uart) : Prop where
  fifo : s.rx.Wf
  dr : bitSet s.lsr lsrDr = decide (0 < s.rx.count)

theorem reset_wf (label : Label) : (reset label).Wf :=
  ⟨RxFifo.empty_wf, by simp [reset, bitSet, lsrTxIdle, lsrDr, RxFifo.empty]⟩

/-! ### Calls that leave the FIFO alone -/

/-- The receive FIFO and DR are as before. -/
structure SameRx (s s' : Uart) : Prop where
  rx : s'.rx = s.rx
  dr : bitSet s'.lsr lsrDr = bitSet s.lsr lsrDr

theorem SameRx.refl (s : Uart) : SameRx s s := ⟨rfl, rfl⟩

theorem SameRx.wf (h : SameRx s s') (hs : s.Wf) : s'.Wf := by
  refine ⟨?_, ?_⟩
  · rw [h.rx]
    exact hs.fifo
  · rw [h.rx, h.dr]
    exact hs.dr

variable (s)

theorem dr_set (r : Byte) : bitSet (r ||| 0x01) lsrDr := by simp [bitSet, lsrDr]

theorem dr_clear (r : Byte) : bitSet (r &&& ~~~0x01) lsrDr = false := by simp [bitSet, lsrDr]

theorem dr_txIdle (r : Byte) : bitSet (r ||| lsrTxIdle) lsrDr = bitSet r lsrDr := by
  simp [bitSet, lsrDr, lsrTxIdle]

theorem dr_oe (r : Byte) : bitSet (r ||| 0x02) lsrDr = bitSet r lsrDr := by simp [bitSet, lsrDr]

theorem dr_clearOe (r : Byte) : bitSet (r &&& ~~~0x02) lsrDr = bitSet r lsrDr := by
  simp [bitSet, lsrDr]

theorem readIir_same : SameRx s s.readIir := by
  unfold readIir
  split
  · split <;> exact ⟨rfl, rfl⟩
  · exact .refl s

/-- Every register read other than that of RBR. -/
theorem readReg_same {r : Reg} (hr : r ≠ .rbrThr) : SameRx s (s.readReg r).1 := by
  cases r with
  | rbrThr => exact absurd rfl hr
  | iirFcr =>
    simp only [readReg]
    split
    · exact .refl s
    · exact readIir_same s
  | lsr =>
    simp only [readReg]
    split
    · exact .refl s
    · exact ⟨rfl, dr_clearOe s.lsr⟩
  | ier | lcr | mcr | msr | spr | mdr1 | scr | ssr => exact .refl s

/-- Every register write other than that of FCR. -/
theorem writeReg_same (value : Byte) {r : Reg} (hr : r ≠ .iirFcr) :
    SameRx s (s.writeReg value r) := by
  cases r with
  | iirFcr => exact absurd rfl hr
  | rbrThr =>
    simp only [writeReg]
    split
    · exact ⟨rfl, rfl⟩
    · exact ⟨rfl, dr_txIdle s.lsr⟩
  | ier | mcr | lsr | msr | spr => simp only [writeReg]; split <;> exact ⟨rfl, rfl⟩
  | lcr | mdr1 | scr | ssr => exact ⟨rfl, rfl⟩

theorem forceInit_same : SameRx s s.forceInit := by
  unfold forceInit
  dsimp only
  split <;> exact ⟨rfl, rfl⟩

theorem kickRx_same : SameRx s s.kickRx := by
  unfold kickRx
  split <;> exact ⟨rfl, rfl⟩

variable {s}

/-! ### Producers -/

theorem queueOps_append (os os' : List Obs) :
    queueOps (os ++ os') = queueOps os ++ queueOps os' := List.flatMap_append

/-- What pushing one byte does, with room or without. -/
theorem fifoPush_spec (h : s.rx.Wf) (b : Byte) :
    (s.fifoPush b).1.rx.Wf ∧
      QueueOp.Steps s.rx.contents (s.fifoPush b).2.ops (s.fifoPush b).1.rx.contents ∧
      bitSet (s.fifoPush b).1.lsr lsrDr = bitSet s.lsr lsrDr := by
  unfold fifoPush
  split
  · exact ⟨h, .nil _, dr_oe s.lsr⟩
  · rename_i hroom
    have hroom : s.rx.count < RxFifo.size := by omega
    refine ⟨h.push hroom b, ?_, rfl⟩
    show QueueOp.Steps s.rx.contents [.accept [b]] (s.rx.push b).contents
    rw [h.push_contents hroom b]
    exact .single (.accept _ _)

/-- A producer acts on the queue as its observations say; it leaves DR to its caller. -/
theorem pushAll_spec (h : s.rx.Wf) (buf : List Byte) :
    (s.pushAll buf).1.rx.Wf ∧
      QueueOp.Steps s.rx.contents (queueOps (s.pushAll buf).2) (s.pushAll buf).1.rx.contents ∧
      bitSet (s.pushAll buf).1.lsr lsrDr = bitSet s.lsr lsrDr := by
  induction buf generalizing s with
  | nil => exact ⟨h, .nil _, rfl⟩
  | cons b bs ih =>
    obtain ⟨hwf, hsteps, hdr⟩ := fifoPush_spec h b
    obtain ⟨hwf', hsteps', hdr'⟩ := ih hwf
    exact ⟨hwf', hsteps.append hsteps', hdr'.trans hdr⟩

/-- With room for all its bytes, a producer has them all accepted, in order. -/
theorem pushAll_accepted {buf : List Byte} (hroom : s.rx.count + buf.length ≤ RxFifo.size) :
    QueueOp.accepted (queueOps (s.pushAll buf).2) = buf := by
  induction buf generalizing s with
  | nil => rfl
  | cons b bs ih =>
    rw [List.length_cons] at hroom
    have hpush : s.fifoPush b = ({ s with rx := s.rx.push b }, .queue (.accept [b])) := by
      unfold fifoPush
      rw [if_neg (by omega)]
    have hrest := @ih { s with rx := s.rx.push b } (by simp only [RxFifo.push]; omega)
    simp only [pushAll, hpush]
    show [b] ++ QueueOp.accepted (queueOps (pushAll { s with rx := s.rx.push b } bs).2) = b :: bs
    rw [hrest]
    rfl

theorem pushAll_count_le (s : Uart) (buf : List Byte) :
    s.rx.count ≤ (s.pushAll buf).1.rx.count := by
  induction buf generalizing s with
  | nil => exact le_rfl
  | cons b bs ih =>
    refine le_trans ?_ (ih _)
    unfold fifoPush
    split
    · exact le_rfl
    · exact Nat.le_succ _

theorem pushAll_eq (s : Uart) (buf : List Byte) :
    ∃ rx lsr, (s.pushAll buf).1 = { s with rx := rx, lsr := lsr } := by
  induction buf generalizing s with
  | nil => exact ⟨s.rx, s.lsr, rfl⟩
  | cons b bs ih =>
    obtain ⟨rx, lsr, hrest⟩ := ih (s.fifoPush b).1
    refine ⟨rx, lsr, hrest.trans ?_⟩
    unfold fifoPush
    split <;> rfl

/-- The call keeps the invariant, and does to the bytes waiting what its observations say. -/
structure Queued (s : Uart) (r : Uart × List Obs) : Prop where
  wf : r.1.Wf
  queue : QueueOp.Steps s.rx.contents (queueOps r.2) r.1.rx.contents

variable {t : Uart} {os : List Obs}

theorem Queued.of_same (h : Queued s (t, os)) (hsame : SameRx t s') : Queued s (s', os) := by
  refine ⟨hsame.wf h.wf, ?_⟩
  rw [hsame.rx]
  exact h.queue

theorem SameRx.queued (h : SameRx s s') (hs : s.Wf) (hos : queueOps os = []) :
    Queued s (s', os) := by
  refine Queued.of_same ⟨hs, ?_⟩ h
  rw [hos]
  exact .nil _

/-- DR set where something waits, and as before where nothing does: what both producers
leave behind. -/
theorem queued_of_flagged (h : s.Wf) (buf : List Byte) (hrx : s'.rx = (s.pushAll buf).1.rx)
    (hlsr : s'.lsr = if 0 < (s.pushAll buf).1.rx.count then (s.pushAll buf).1.lsr ||| 0x01
      else (s.pushAll buf).1.lsr) : Queued s (s', (s.pushAll buf).2) := by
  obtain ⟨hwf, hsteps, hdr⟩ := pushAll_spec h.fifo buf
  refine ⟨⟨hrx ▸ hwf, ?_⟩, hrx ▸ hsteps⟩
  rw [hrx, hlsr]
  by_cases hcount : 0 < (s.pushAll buf).1.rx.count
  · rw [if_pos hcount, dr_set, decide_eq_true hcount]
  · have hnone : ¬ 0 < s.rx.count := fun hpos => hcount (hpos.trans_le (pushAll_count_le s buf))
    rw [if_neg hcount, hdr, h.dr, decide_eq_false hnone, decide_eq_false hcount]

theorem injectRaw_rx (s : Uart) (buf : List Byte) :
    (s.injectRaw buf).1.rx = (s.pushAll buf).1.rx := by
  simp only [injectRaw]
  split <;> rfl

theorem queued_injectRaw (h : s.Wf) (buf : List Byte) : Queued s (s.injectRaw buf) := by
  refine queued_of_flagged h buf (injectRaw_rx s buf) ?_
  split <;> rfl

theorem flagData_rx (s : Uart) : s.flagData.updateIrq.rx = s.rx := by
  unfold flagData
  split <;> rfl

theorem flagData_lsr (s : Uart) :
    s.flagData.updateIrq.lsr = if 0 < s.rx.count then s.lsr ||| 0x01 else s.lsr := by
  unfold flagData
  split <;> rfl

theorem flagData_same (h : s.Wf) : SameRx s s.flagData.updateIrq := by
  refine ⟨flagData_rx s, ?_⟩
  rw [flagData_lsr]
  split
  · rename_i hcount
    rw [dr_set, h.dr, decide_eq_true hcount]
  · rfl

/-- A delivery of the backend, on any port and in any phase of the boot loader. -/
theorem queued_receive (h : s.Wf) (buf : List Byte) : Queued s (s.receive buf) := by
  unfold receive
  cases s.label with
  | irda => exact queued_of_flagged h buf (flagData_rx _) (flagData_lsr _)
  | modem =>
    have hs : (s.loaded (s.romload.filter buf).1).Wf := ⟨h.fifo, h.dr⟩
    dsimp only
    split
    · exact ⟨hs, .nil _⟩
    · obtain ⟨hwf, hqueue⟩ := queued_injectRaw hs (s.romload.filter buf).2.1
      exact ⟨hwf, hqueue⟩
  | other =>
    have hraw := queued_injectRaw h buf
    exact hraw.of_same (flagData_same hraw.wf)

/-- The boot-loader stub is out of the way: another port, or the phase is over. -/
def transparent (s : Uart) : Bool := s.label != .modem || s.romload.state == .passthrough

/-- Past the romload phase the stub lets everything through. -/
theorem Romload.filter_passthrough {r : Romload} (hr : r.state = .passthrough) (buf : List Byte) :
    r.filter buf = (r, buf, []) := by
  induction buf with
  | nil => rfl
  | cons b bs ih =>
    have heat : r.stubEat b = (r, [], false) := by
      unfold Romload.stubEat
      rw [hr]
    simp only [Romload.filter, heat, ih]
    rfl

/-- A delivery no longer than `can_receive` allows has all its bytes accepted, once the
stub is out of the way. -/
theorem receive_accepted {buf : List Byte} (ht : s.transparent)
    (hfits : (buf.length : Int) ≤ s.canReceive) :
    QueueOp.accepted (queueOps (s.receive buf).2) = buf := by
  have hroom : s.rx.count + buf.length ≤ RxFifo.size := by
    unfold canReceive at hfits
    omega
  cases hlabel : s.label with
  | irda | other =>
    unfold receive
    rw [hlabel]
    exact pushAll_accepted hroom
  | modem =>
    have hpass : s.romload.state = .passthrough := by
      simpa [transparent, hlabel] using ht
    unfold receive
    rw [hlabel, Romload.filter_passthrough hpass]
    dsimp only
    split
    · rename_i hnil
      rw [hnil]
      rfl
    · exact pushAll_accepted hroom

/-! ### The guest -/

theorem readRbr_rx (s : Uart) : s.readRbr.1.rx = s.rx.pop.1 := by
  simp only [readRbr]
  split <;> rfl

/-- Reading RBR recomputes DR from what is left. -/
theorem readRbr_wf (h : s.Wf) : s.readRbr.1.Wf := by
  refine ⟨?_, ?_⟩
  · rw [readRbr_rx]
    exact h.fifo.pop
  · rw [readRbr_rx]
    simp only [readRbr]
    split
    · rename_i hcount
      rw [decide_eq_true hcount]
      exact dr_set s.lsr
    · rename_i hcount
      rw [decide_eq_false hcount]
      exact dr_clear s.lsr

/-- A read takes the front byte, or leaves the FIFO alone. -/
theorem queued_read (h : s.Wf) (offset : Nat) : Queued s (s.step (.read offset)) := by
  simp only [step]
  cases htakes : s.takes offset with
  | true =>
    simp only [takes, Bool.and_eq_true, beq_iff_eq, Bool.not_eq_true', decide_eq_true_eq] at htakes
    obtain ⟨⟨hreg, hdlab⟩, hcount⟩ := htakes
    have hread : s.read offset = s.readRbr := by
      simp [read, hreg, readReg, hdlab]
    rw [hread]
    refine ⟨readRbr_wf h, ?_⟩
    rw [readRbr_rx, h.fifo.pop_contents hcount]
    exact .single (.deliver [s.rx.pop.2] _)
  | false =>
    refine SameRx.queued ?_ h rfl
    unfold read
    split
    · rename_i r hreg
      by_cases hr : r = .rbrThr
      · subst hr
        simp only [readReg]
        split
        · exact .refl s
        · rename_i hdlab
          have hempty : s.rx.pop.1 = s.rx :=
            RxFifo.pop_of_empty (by simpa [takes, hreg, hdlab] using htakes)
          have hrx : s.readRbr.1.rx = s.rx := (readRbr_rx s).trans hempty
          exact ⟨hrx, by rw [(readRbr_wf h).dr, hrx, h.dr]⟩
      · exact readReg_same s hr
    · exact .refl s

theorem fcrTx_same (s : Uart) (value : Byte) : SameRx s (s.fcrTx value) := by
  unfold fcrTx
  split
  · exact ⟨rfl, dr_txIdle s.lsr⟩
  · exact .refl s

theorem writeFcr_same (s : Uart) (value : Byte) :
    SameRx (fcrRx { s with fcr := value } value) (s.writeFcr value) := by
  obtain ⟨hrx, hdr⟩ := fcrTx_same (fcrRx { s with fcr := value } value) value
  exact ⟨hrx, hdr⟩

/-- A write with an RX reset loses what waits, any other leaves the FIFO alone. -/
theorem queued_write (h : s.Wf) (offset : Nat) (value : Byte) :
    Queued s (s.step (.write offset value)) := by
  have hsent : ∀ os, queueOps (os ++ if s.sends offset then [Obs.sent [value]] else [])
      = queueOps os := by
    intro os
    rw [queueOps_append]
    split <;> simp [queueOps, Obs.ops]
  simp only [step]
  cases hflush : s.flushes offset value with
  | true =>
    simp only [flushes, Bool.and_eq_true, beq_iff_eq, Bool.not_eq_true'] at hflush
    obtain ⟨⟨hreg, hbf⟩, hreset⟩ := hflush
    have hwrite : s.write offset value = s.writeFcr value := by
      simp [write, hreg, writeReg, hbf]
    rw [hwrite]
    refine Queued.of_same ?_ (writeFcr_same s value)
    rw [fcrRx, if_pos hreset]
    refine ⟨⟨s.rx.reset_wf, dr_clear s.lsr⟩, ?_⟩
    rw [hsent]
    exact .lose_all _
  | false =>
    refine SameRx.queued ?_ h (hsent [])
    unfold write
    split
    · rename_i r hreg
      by_cases hr : r = .iirFcr
      · subst hr
        simp only [writeReg]
        split
        · exact ⟨rfl, rfl⟩
        · rename_i hbf
          have hsame := writeFcr_same s value
          rw [fcrRx, if_neg (by simpa [flushes, hreg, hbf] using hflush)] at hsame
          exact ⟨hsame.rx, hsame.dr⟩
      · exact writeReg_same s value hr
    · exact .refl s

/-! ### Every call, every run -/

theorem queued_step (h : s.Wf) (e : Event) : Queued s (s.step e) := by
  cases e with
  | receive buf => exact queued_receive h buf
  | inject buf => exact queued_injectRaw h buf
  | read offset => exact queued_read h offset
  | write offset value => exact queued_write h offset value
  | kickRx => exact (kickRx_same s).queued h rfl
  | forceInit => exact (forceInit_same s).queued h rfl
  | kickTx | romloadPassthrough => exact ⟨⟨h.fifo, h.dr⟩, .nil _⟩

/-- A delivery is no longer than `can_receive` allows. -/
def Fits (s : Uart) : Event → Prop
  | .receive buf => (buf.length : Int) ≤ s.canReceive
  | _ => True

instance decidableFits (s : Uart) : ∀ e : Event, Decidable (Fits s e)
  | .receive buf => inferInstanceAs (Decidable ((buf.length : Int) ≤ s.canReceive))
  | .inject _ | .read _ | .write _ _ | .kickRx | .kickTx | .forceInit | .romloadPassthrough =>
    isTrue trivial

/-- A delivery past the romload phase is accepted whole, in order. -/
def Kept (s : Uart) : Event → Prop
  | .receive buf => s.transparent = true → QueueOp.accepted (queueOps (s.receive buf).2) = buf
  | _ => True

theorem kept_of_fits {e : Event} (h : Fits s e) : Kept s e := by
  cases e with
  | receive buf =>
    intro ht
    exact receive_accepted ht h
  | inject | read | write | kickRx | kickTx | forceInit | romloadPassthrough => trivial

/-- **The receive FIFO is a bounded queue.** After any calls, with deliveries no longer
than `can_receive` allows, the bytes waiting are those the accepted, delivered and reset
bytes account for: what the guest read is, in order, what was accepted, short only of what
FCR resets threw away. The indices and DR say where they stand, and no delivery past the
romload phase ever lost a byte. -/
theorem rxFifo_bounded_queue (label : Label) (es : List Event)
    (hfits : machine.Along Fits (reset label) es) :
    let s := machine.final (reset label) es
    let ops := queueOps (machine.trace (reset label) es)
    QueueOp.Steps [] ops s.rx.contents ∧
      (QueueOp.delivered ops ++ s.rx.contents).Sublist (QueueOp.accepted ops) ∧
      (QueueOp.lost ops = [] → QueueOp.delivered ops ++ s.rx.contents = QueueOp.accepted ops) ∧
      s.rx.contents.length = s.rx.count ∧ s.rx.count ≤ RxFifo.size ∧
      s.rx.head = (s.rx.tail + s.rx.count) % RxFifo.size ∧
      (bitSet s.lsr lsrDr = true ↔ s.rx.contents ≠ []) ∧
      machine.Along Kept (reset label) es := by
  intro s ops
  have hwf : s.Wf :=
    Machine.invariant (I := Wf) (fun t e ht _ => (queued_step ht e).wf) (reset_wf label) hfits
  have hsteps : QueueOp.Steps [] ops s.rx.contents :=
    Machine.queue_steps (M := machine) (I := Wf) (fun t => t.rx.contents) Obs.ops
      (fun t e ht _ => (queued_step ht e).wf) (fun t e ht _ => (queued_step ht e).queue)
      (reset_wf label) hfits
  refine ⟨hsteps, hsteps.sublist, hsteps.conservation, RxFifo.contents_length _,
    hwf.fifo.count_le, hwf.fifo.head_eq, ?_, hfits.mono fun t e => kept_of_fits⟩
  rw [hwf.dr, decide_eq_true_eq, Ne, RxFifo.contents_eq_nil_iff]
  exact Nat.pos_iff_ne_zero

/-- Two bytes delivered on the IrDA port, one of them read: the other one waits. -/
theorem rxFifo_bounded_queue_irda :
    machine.Along Fits (reset .irda) [.receive [0x41, 0x42], .read 0x00] ∧
      bitSet (machine.final (reset .irda) [.receive [0x41, 0x42], .read 0x00]).lsr lsrDr = true :=
  have hfits : machine.Along Fits (reset .irda) [.receive [0x41, 0x42], .read 0x00] := by decide
  ⟨hfits, (rxFifo_bounded_queue .irda _ hfits).2.2.2.2.2.2.1.mpr (by decide)⟩

end Uart

end Qosmo
