import Qosmo.C54x.Steps

/-!
# Qosmo.C54x.Guards

When an interrupt may be entered.

Two rules are meant to hold at every entry, by whatever path. An interrupt is not
recognised between a delayed transfer and the end of its two delay-slot words, and
it is not entered while INTM masks it or its IMR bit is clear.

The four paths do not check the same things (`Taken.Guarded`):

* the replay does not look at the delay slots. A request that arrives in a delay slot
  is latched by `interruptEx`, which does look, and entered by the replay of the very
  next turn;
* the IDLE branch looks at neither the delay slots nor INTM.

So both rules hold along the runs that keep away from these two paths where they are
unguarded (`SlotSafe`, `MaskSafe`).
-/

namespace Qosmo.C54x

open State

variable {g : Gates} {s : State} {e : Event} {t : Taken}

/-! ### Delay slots -/

/-- While a delayed transfer is pending, no turn finds an enabled request latched or
stops the core under an expiring timer, and no enabled request reaches a core that
IDLE has stopped. -/
def SlotSafe (s : State) : Event → Prop
  | .pass _ => s.executes = true → s.delaySlots ≠ 0 →
      (s.intm = true ∨ s.pending = 0) ∧ idlesUnderTimer s = false
  | .request _ _ bit => s.idle = true → s.delaySlots ≠ 0 → bitSet s.imr bit = false
  | _ => True

instance (s : State) : (e : Event) → Decidable (SlotSafe s e)
  | .pass _ => inferInstanceAs (Decidable (_ → _ → _))
  | .request _ _ _ => inferInstanceAs (Decidable (_ → _ → _))
  | .wake => inferInstanceAs (Decidable True)
  | .poke _ _ => inferInstanceAs (Decidable True)
  | .reset _ => inferInstanceAs (Decidable True)

theorem delaySlots_of_step (hsafe : SlotSafe s e) (h : Obs.taken t ∈ (step g s e).2) :
    t.pre.delaySlots = 0 := by
  obtain ⟨himr, hguard⟩ := guarded_of_step h
  by_contra hne
  cases hp : t.path with
  | level | request =>
    rw [hp] at hguard
    exact hne hguard.2
  | replay =>
    obtain ⟨bus, rfl, hexec, hr⟩ := replay_of_step h hp
    rw [congrArg Taken.pre (replay_eq_some hr).2.1] at hne
    obtain ⟨hquiet, -⟩ := hsafe hexec hne
    rw [replay_eq_self bus hquiet] at hr
    cases hr
  | wake =>
    rcases wake_of_step h hp with ⟨bus, vec, bit, rfl, hpre, hidle, hbit⟩ |
      ⟨bus, rfl, hexec, htimer, hslots, -⟩
    · rw [hpre] at hne
      rw [hsafe hidle hne] at hbit
      cases hbit
    · rw [hslots] at hne
      obtain ⟨hquiet, hidles⟩ := hsafe hexec hne
      rw [replay_eq_self bus hquiet, hidles] at htimer
      cases htimer

/-- **No interrupt is entered in a delay slot**, in any run whose steps keep the
replay and the IDLE branch away from pending delayed transfers. -/
theorem delaySlots_zero_at_entry (g : Gates) (s : State) (es : List Event)
    (hsafe : (core g).Along SlotSafe s es) :
    ∀ t, Obs.taken t ∈ (core g).trace s es → t.pre.delaySlots = 0 := by
  refine taken_of_run (C := SlotSafe) ?_ hsafe
  intro s e hstep t ht
  exact delaySlots_of_step hstep ht

/-- RSBX INTM; BD 0x1234; NOP; NOP, and the frame interrupt requested after the
delayed branch has been executed. -/
def slotProgram : List Word := [0xF6BB, 0xF273, 0x1234, 0xF495, 0xF495]

def slotSchedule : List Event :=
  [.pass .quiet, .pass .quiet, .request .quiet 28 12, .pass .quiet]

/-- The same program with the request after the second delay slot. -/
def lateSchedule : List Event :=
  [.pass .quiet, .pass .quiet, .pass .quiet, .pass .quiet, .request .quiet 28 12]

theorem late_request_entered :
    (core ⟨false⟩).Along SlotSafe (boot slotProgram) lateSchedule ∧
    ∃ t, Obs.taken t ∈ (core ⟨false⟩).trace (boot slotProgram) lateSchedule ∧
      t.pre.delaySlots = 0 := by
  have hsafe : (core ⟨false⟩).Along SlotSafe (boot slotProgram) lateSchedule := by decide +kernel
  obtain ⟨t, ht, -⟩ := exists_of_hasEntry (fun t => t.path == .request)
    ((core ⟨false⟩).trace (boot slotProgram) lateSchedule) (by decide +kernel)
  exact ⟨hsafe, t, ht, delaySlots_zero_at_entry _ _ _ hsafe t ht⟩

/-- The request finds both delay slots open and is only latched; the next turn replays
it at once. -/
theorem replay_in_delay_slot : ∃ t, Obs.taken t ∈ (core ⟨false⟩).trace
    (boot slotProgram) slotSchedule ∧
    t.path = .replay ∧ t.pre.delaySlots = 2 := by
  obtain ⟨t, ht, hp⟩ := exists_of_hasEntry
    (fun t => t.path == .replay && t.pre.delaySlots == 2)
    ((core ⟨false⟩).trace (boot slotProgram) slotSchedule) (by decide +kernel)
  simp only [Bool.and_eq_true, beq_iff_eq] at hp
  exact ⟨t, ht, hp⟩

/-! ### Masks -/

/-- With INTM set, no turn stops the core under an expiring timer, and no enabled
request reaches a core that IDLE has stopped. A turn that replays an interrupt runs
its instruction with INTM set. -/
def MaskSafe (s : State) : Event → Prop
  | .pass bus => s.executes = true → (replay bus s).1.intm = true →
      idlesUnderTimer (replay bus s).1 = false
  | .request _ _ bit => s.idle = true → s.intm = true → bitSet s.imr bit = false
  | _ => True

instance (s : State) : (e : Event) → Decidable (MaskSafe s e)
  | .pass _ => inferInstanceAs (Decidable (_ → _ → _))
  | .request _ _ _ => inferInstanceAs (Decidable (_ → _ → _))
  | .wake => inferInstanceAs (Decidable True)
  | .poke _ _ => inferInstanceAs (Decidable True)
  | .reset _ => inferInstanceAs (Decidable True)

theorem unmasked_of_step (hsafe : MaskSafe s e) (h : Obs.taken t ∈ (step g s e).2) :
    t.pre.intm = false ∧ bitSet t.pre.imr t.bit := by
  obtain ⟨himr, hguard⟩ := guarded_of_step h
  refine ⟨?_, himr⟩
  cases hp : t.path with
  | level | request =>
    rw [hp] at hguard
    exact hguard.1
  | replay =>
    rw [hp] at hguard
    exact hguard
  | wake =>
    by_contra hne
    rw [Bool.not_eq_false] at hne
    rcases wake_of_step h hp with ⟨bus, vec, bit, rfl, hpre, hidle, hbit⟩ |
      ⟨bus, rfl, hexec, htimer, -, hintm⟩
    · rw [hpre] at hne
      rw [hsafe hidle hne] at hbit
      cases hbit
    · rw [hintm] at hne
      rw [hsafe hexec hne] at htimer
      cases htimer

/-- A request latched in IFR; a core in IDLE goes on behind the IDLE. -/
def latched (s : State) (bit : Nat) : State :=
  { s with
    ifr := setBit s.ifr bit
    idle := false
    pc := if s.idle then s.pc + 1 else s.pc }

/-- With INTM set, a request that meets the condition is latched and wakes the core. -/
theorem request_of_intm {bus : Bus} {vec bit : Nat} (hvec : vec < 32) (hbit : bit < 16)
    (hintm : s.intm) (hsafe : MaskSafe s (.request bus vec bit)) :
    step g s (.request bus vec bit) = (latched s bit, []) := by
  have hrange : ¬ (32 ≤ vec ∨ 16 ≤ bit) := by omega
  cases hidle : s.idle with
  | true =>
    have himr := hsafe hidle hintm
    simp [step, interruptEx, hrange, hidle, himr, latched]
  | false =>
    have hlatch : latched s bit = { s with ifr := setBit s.ifr bit } := by
      simp only [latched, hidle, Bool.false_eq_true, if_false]
      rw [← hidle]
    rw [hlatch]
    simp [step, interruptEx, hrange, hidle, hintm]

/-- **No interrupt is entered while it is masked**, by INTM or in IMR, in any run whose
steps keep the IDLE branch away from INTM; in every state such a run reaches, a request
that arrives with INTM set is latched, wakes the core, and does nothing else. -/
theorem unmasked_at_entry (g : Gates) (s : State) (es : List Event)
    (hsafe : (core g).Along MaskSafe s es) :
    (∀ t, Obs.taken t ∈ (core g).trace s es →
      t.pre.intm = false ∧ bitSet t.pre.imr t.bit = true) ∧
    ∀ bus vec bit, vec < 32 → bit < 16 → ((core g).final s es).intm = true →
      MaskSafe ((core g).final s es) (.request bus vec bit) →
      (core g).step ((core g).final s es) (.request bus vec bit) =
        (latched ((core g).final s es) bit, []) := by
  constructor
  · refine taken_of_run (C := MaskSafe) ?_ hsafe
    intro s e hstep t ht
    exact unmasked_of_step hstep ht
  · intro bus vec bit hvec hbit hintm hreq
    exact request_of_intm (g := g) hvec hbit hintm hreq

/-- RSBX INTM, then IDLE. -/
def openIdle : List Word := [0xF6BB, 0xF4E1]

def idleSchedule : List Event := [.pass .quiet, .pass .quiet, .request .quiet 28 12]

theorem idle_request_entered :
    (core ⟨false⟩).Along MaskSafe (boot openIdle) idleSchedule ∧
    ∃ t, Obs.taken t ∈ (core ⟨false⟩).trace (boot openIdle) idleSchedule ∧
      t.path = .wake ∧ t.pre.intm = false := by
  have hsafe : (core ⟨false⟩).Along MaskSafe (boot openIdle) idleSchedule := by decide +kernel
  obtain ⟨t, ht, hp⟩ := exists_of_hasEntry (fun t => t.path == .wake)
    ((core ⟨false⟩).trace (boot openIdle) idleSchedule) (by decide +kernel)
  exact ⟨hsafe, t, ht, by simpa using hp, ((unmasked_at_entry _ _ _ hsafe).1 t ht).1⟩

/-- Without the RSBX, the core is in IDLE with INTM still set from reset, and the
request is entered all the same. -/
theorem wake_under_intm :
    ∃ t, Obs.taken t ∈ (core ⟨false⟩).trace (boot [0xF4E1]) [.pass .quiet, .request .quiet 28 12] ∧
      t.path = .wake ∧ t.pre.intm = true := by
  obtain ⟨t, ht, hp⟩ := exists_of_hasEntry (fun t => t.path == .wake && t.pre.intm)
    ((core ⟨false⟩).trace (boot [0xF4E1]) [.pass .quiet, .request .quiet 28 12])
    (by decide +kernel)
  simp only [Bool.and_eq_true, beq_iff_eq] at hp
  exact ⟨t, ht, hp⟩

end Qosmo.C54x
