import Qosmo.Inth

/-!
# Qosmo.Inth.Latch

A pulse is not lost.

Sources 4, 5 and 15 raise short pulses. Configured edge (ILR bit 1), such a source stays
pending after its line has fallen, so that a long handler or a mask only delays it. What ends
the wait is that it is *taken*: IRQ_NUM hands out its number, the guest clears its bit of
IT_REG, or the DSP acknowledges it. No other read or write can do it; in particular a read of
FIQ_NUM cannot, since no source is ever elected for FIQ (`NoFiq`).

The latch is in force while the source is configured edge: once the guest has programmed it
level-sensitive again, the falling line clears it (`released`).
-/

namespace Qosmo.Inth

variable {s : Inth} {src : Irq}

/-! ### What ends the wait -/

/-- Does this call take the source? IRQ_NUM returns its number, IT_REG is written with its
bit clear, or the DSP acknowledges it. -/
def taken (src : Irq) (s : Inth) : Event → Bool
  | .read offset => isIrqNum offset && (s.read offset).2 == BitVec.ofNat 16 src
  | .write offset value =>
    (offset == 0x00 && decide ((src : Nat) < 16) && !bitSet value src)
      || (offset == 0x02 && decide (16 ≤ (src : Nat)) && !bitSet value (src - 16))
  | .armAck => s.ithV == src
  | .setIrq _ _ => false

/-- Does its line fall while it is not configured edge? -/
def released (src : Irq) (s : Inth) : Event → Bool
  | .setIrq irq level => irq == src && !level && !s.edge src
  | _ => false

/-! ### No source is elected for FIQ -/

/-- ILR keeps seven bits, so bit 8 never routes a source to FIQ and FIQ_NUM stays zero. -/
structure NoFiq (s : Inth) : Prop where
  route : ∀ i, bitSet (s.ilr i) 8 = false
  num : s.fiqV = 0

theorem reset_noFiq : reset.NoFiq := ⟨reset_wf.noFiq, rfl⟩

theorem NoFiq.of_updated {s' : Inth} (h : s.NoFiq) (hupdated : s.Updated s') : s'.NoFiq := by
  obtain ⟨t, rfl, hilr, hfiq⟩ := hupdated
  have hroute : ∀ i, bitSet (t.ilr i) 8 = false := by
    rw [hilr]
    exact h.route
  have hwf := update_wf hroute (hfiq.trans h.num)
  exact ⟨hwf.noFiq, hwf.fiqV⟩

theorem step_noFiq (h : s.NoFiq) (e : Event) : (s.step e).1.NoFiq := by
  have hcall := called_step s e
  generalize (s.step e).1 = s' at hcall ⊢
  cases hcall with
  | same => exact h
  | updated hupdated => exact h.of_updated hupdated
  | @ilr _ idx value => exact ⟨ilrWrite_noFiq h.route idx value, h.num⟩
  | armAck =>
    unfold armAck
    split
    · exact ⟨h.route, h.num⟩
    · exact h

/-! ### One call -/

theorem drop_keeps {irq : Irq} (hne : irq ≠ src) (h : s.irqPending src) :
    (s.drop irq).irqPending src := by
  simp [drop_irqPending, h, hne]

theorem take_keeps {num : Irq} (hne : num ≠ src) (h : s.irqPending src) :
    (s.take num).irqPending src := by
  unfold take
  rw [update_irqPending]
  split
  · exact drop_keeps hne h
  · exact h

/-- The line: a rise sets the bit, a fall spares it unless it releases the source. -/
theorem setIrq_keeps {irq : Irq} {level : Bool} (hpulse : pulse src)
    (h : s.irqPending src) (hrel : released src s (.setIrq irq level) = false) :
    (s.setIrq irq level).irqPending src := by
  unfold setIrq
  rw [update_irqPending]
  cases level with
  | true => simp [raise_irqPending, h]
  | false =>
    simp only [Bool.false_eq_true, if_false]
    by_cases hirq : irq = src
    · -- its own line: the source is configured edge, or this would have released it
      have hedge : s.edge src := by simpa [released, hirq] using hrel
      rw [hirq, hedge, hpulse]
      exact h
    · split
      · exact h
      · exact drop_keeps hirq h

theorem read_keeps {offset : Nat} (hno : s.NoFiq) (hpulse : pulse src)
    (h : s.irqPending src) (htaken : taken src s (.read offset) = false) :
    (s.read offset).1.irqPending src := by
  have hread := reads_read s offset
  have htaken : isIrqNum offset → s.ithV ≠ src := by
    rintro hnum rfl
    have hoff : offset = 0x10 ∨ offset = 0x80 := by simpa [isIrqNum] using hnum
    rcases hoff with rfl | rfl <;> simp [taken, read, isIrqNum] at htaken
  generalize (s.read offset).1 = s' at hread ⊢
  cases hread with
  | irqNum hnum => exact take_keeps (htaken hnum) h
  | fiqNum =>
    -- FIQ_NUM is zero, and zero is none of the three sources
    refine take_keeps ?_ h
    rw [hno.num]
    rintro rfl
    cases hpulse
  | same => exact h

theorem pulse_cases (h : pulse src) : src = 4 ∨ src = 5 ∨ src = 15 := by
  simpa [pulse, or_assoc] using h

/-- A write clears the bit only through IT_REG, and only with the bit clear in the value. -/
theorem write_keeps {offset : Nat} {value : Word} (hpulse : pulse src)
    (h : s.irqPending src) (htaken : taken src s (.write offset value) = false) :
    (s.write offset value).irqPending src := by
  unfold write
  split_ifs with h0 h2
  · -- IT_REG, low half: the three sources have their bits here
    have hbit : bitSet value src := by
      rcases pulse_cases hpulse with rfl | rfl | rfl <;> simpa [taken, h0] using htaken
    rw [update_irqPending]
    simp only [irqPending, bitSet] at h hbit ⊢
    simp [h, hbit]
  · rw [update_irqPending]
    simp only [irqPending, bitSet] at h ⊢
    rcases pulse_cases hpulse with rfl | rfl | rfl <;> simpa using h
  all_goals exact h

theorem armAck_keeps (h : s.irqPending src) (htaken : taken src s .armAck = false) :
    s.armAck.irqPending src := by
  have hne : s.ithV ≠ src := by simpa [taken] using htaken
  unfold armAck
  split
  · exact drop_keeps hne h
  · exact h

/-- **One call.** A pending pulse source stays so, unless the call takes or releases it. -/
theorem step_keeps {e : Event} (hno : s.NoFiq) (hpulse : pulse src)
    (h : s.irqPending src) (htaken : taken src s e = false)
    (hrel : released src s e = false) : (s.step e).1.irqPending src := by
  cases e with
  | setIrq irq level => exact setIrq_keeps hpulse h hrel
  | read offset => exact read_keeps hno hpulse h htaken
  | write offset value => exact write_keeps hpulse h htaken
  | armAck => exact armAck_keeps h htaken

/-! ### Whole runs -/

/-- **A pulse is not lost.** Once the line of source 4, 5 or 15 has risen, the source stays
pending through any calls, until one takes it or its line falls with the source no longer
configured edge. -/
theorem pulse_latched (before after : List Event) (src : Irq) (hpulse : pulse src = true)
    (hkept : machine.Along (fun s e => taken src s e = false ∧ released src s e = false)
      (machine.final reset (before ++ [.setIrq src true])) after) :
    (machine.final reset (before ++ .setIrq src true :: after)).irqPending src = true := by
  have hno : ∀ es, (machine.final reset es).NoFiq := fun es =>
    Machine.invariant (I := NoFiq) (fun t e ht _ => step_noFiq ht e) reset_noFiq
      (Machine.along_true reset es)
  have hrise : (machine.final reset (before ++ [.setIrq src true])).irqPending src = true := by
    rw [Machine.final_append]
    show ((machine.final reset before).setIrq src true).irqPending src = true
    simp [setIrq, raise_irqPending]
  rw [List.append_cons, Machine.final_append]
  refine (Machine.invariant (I := fun t => t.NoFiq ∧ t.irqPending src = true) ?_
    ⟨hno _, hrise⟩ hkept).2
  intro t e ht hC
  exact ⟨step_noFiq ht.1 e, step_keeps ht.1 hpulse ht.2 hC.1 hC.2⟩

/-- The TPU frame interrupt, configured edge: its pulse ends, everything is masked, the UART
raises its line, and the frame is still pending. -/
theorem pulse_latched_frame :
    (machine.final reset ([.write 0x28 0x02] ++ .setIrq 4 true ::
      [.setIrq 4 false, .write 0x08 0xFFFF, .setIrq 7 true])).irqPending 4 = true :=
  pulse_latched _ _ 4 (by decide) (by decide)

/-- Configured edge and raised, then programmed level-sensitive: the falling line drops the
source, though nothing has taken it. -/
theorem pulse_dropped_level :
    (machine.final reset [.write 0x28 0x02]).edge 4 = true ∧
      machine.Along (fun s e => taken 4 s e = false)
        (machine.final reset ([.write 0x28 0x02] ++ [.setIrq 4 true]))
        [.write 0x28 0x00, .setIrq 4 false] ∧
      (machine.final reset ([.write 0x28 0x02] ++ .setIrq 4 true ::
        [.write 0x28 0x00, .setIrq 4 false])).irqPending 4 = false := by
  decide

end Qosmo.Inth
