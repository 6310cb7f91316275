import Qosmo.C54x.Steps

/-!
# Qosmo.C54x.Timer

The period of the on-chip timer.

The timer is two counters, the prescaler in front of TIM, and each of them is reloaded when it has
reached zero: the prescaler from TDDR, TIM from PRD. Taken together they are one counter of
`psc + TIM * (TDDR + 1)` that requests TINT at zero and starts over. `tint_period` counts the ticks
between two requests in every run that leaves the timer registers to the timer. A tick is a turn of
`c54x_run` that reaches it: a turn in a single repeat ends before.
-/

namespace Qosmo.C54x

open State

variable {g : Gates} {bus : Bus} {s : State}

structure TimerRegs where
  tim : Word
  prd : Word
  tcr : Word
  psc : Word
  deriving DecidableEq

def State.timerRegs (s : State) : TimerRegs :=
  ⟨s.data timAddr, s.data prdAddr, s.data tcrAddr, s.timerPsc⟩

namespace TimerRegs

def tddr (r : TimerRegs) : Nat := (r.tcr &&& Tcr.tddrMask).toNat

def stopped (r : TimerRegs) : Bool := bitSet r.tcr Tcr.tss

/-- The next tick requests TINT (`timerDue`). -/
def due (r : TimerRegs) : Bool := !r.stopped && r.psc == 0 && r.tim == 0

def tick (r : TimerRegs) : TimerRegs :=
  if r.stopped then r
  else if r.psc = 0 then
    { r with psc := r.tcr &&& Tcr.tddrMask, tim := if r.tim = 0 then r.prd else r.tim - 1 }
  else { r with psc := r.psc - 1 }

def left (r : TimerRegs) : Nat := r.psc.toNat + r.tim.toNat * (r.tddr + 1)

def period (r : TimerRegs) : Nat := (r.prd.toNat + 1) * (r.tddr + 1)

variable {r : TimerRegs}

theorem tick_of_stopped (h : r.stopped) : r.tick = r := if_pos h

theorem tick_prescale (hrun : r.stopped = false) (hpsc : r.psc ≠ 0) :
    r.tick = { r with psc := r.psc - 1 } := by
  rw [tick, hrun, if_neg Bool.false_ne_true, if_neg hpsc]

theorem tick_reload (hrun : r.stopped = false) (hpsc : r.psc = 0) :
    r.tick =
      { r with psc := r.tcr &&& Tcr.tddrMask, tim := if r.tim = 0 then r.prd else r.tim - 1 } := by
  rw [tick, hrun, if_neg Bool.false_ne_true, if_pos hpsc]

theorem tick_fixed (r : TimerRegs) : r.tick.prd = r.prd ∧ r.tick.tcr = r.tcr := by
  unfold tick
  split_ifs <;> exact ⟨rfl, rfl⟩

theorem toNat_sub_one {w : Word} (h : w ≠ 0) : w.toNat = (w - 1).toNat + 1 := by
  bv_omega

theorem left_tick_of_due (h : r.due) : r.left = 0 ∧ r.tick.left + 1 = r.period := by
  simp only [due, Bool.and_eq_true, Bool.not_eq_true', beq_iff_eq] at h
  obtain ⟨⟨hrun, hpsc⟩, htim⟩ := h
  constructor
  · rw [left, hpsc, htim]
    simp
  · rw [tick_reload hrun hpsc, if_pos htim]
    change r.tddr + r.prd.toNat * (r.tddr + 1) + 1 = r.period
    rw [period, Nat.succ_mul]
    omega

theorem left_tick (hrun : r.stopped = false) (h : r.due = false) : r.left = r.tick.left + 1 := by
  by_cases hpsc : r.psc = 0
  · -- the prescaler is reloaded, and TIM loses one
    have htim : r.tim ≠ 0 := by
      intro htim
      simp [due, hrun, hpsc, htim] at h
    rw [tick_reload hrun hpsc, if_neg htim, left, hpsc, toNat_sub_one htim]
    change 0 + ((r.tim - 1).toNat + 1) * (r.tddr + 1) =
      r.tddr + (r.tim - 1).toNat * (r.tddr + 1) + 1
    rw [Nat.succ_mul]
    omega
  · rw [tick_prescale hrun hpsc, left, toNat_sub_one hpsc]
    change (r.psc - 1).toNat + 1 + r.tim.toNat * (r.tddr + 1) =
      (r.psc - 1).toNat + r.tim.toNat * (r.tddr + 1) + 1
    omega

end TimerRegs

/-! ### The tick of a turn -/

/-- The state the timer finds in a turn, if the turn reaches it. -/
def atTimer (g : Gates) (bus : Bus) (s : State) : Option State :=
  if !s.executes then none
  else
    let p := prepare (replay bus s).1
    let r := execSettled g bus p
    if r.1.rptActive && !r.1.idle then
      if p.rptActive && r.1.rptCount == 0 then some (advance r.2.1 { r.1 with rptActive := false })
      else none
    else some (advance r.2.1 r.1)

theorem timerDue_eq (s : State) : timerDue s = s.timerRegs.due := rfl

theorem timerRegs_loadTimer (s : State) (tim : Word) :
    (loadTimer s tim).timerRegs =
      ⟨tim, s.data prdAddr, s.data tcrAddr, s.data tcrAddr &&& Tcr.tddrMask⟩ := by
  simp [timerRegs, loadTimer, setData, timAddr, prdAddr, tcrAddr]

theorem timerRegs_of_due (h : timerDue s) :
    (loadTimer s (s.data prdAddr)).timerRegs = s.timerRegs.tick := by
  simp only [timerDue, Bool.and_eq_true, Bool.not_eq_true', beq_iff_eq] at h
  obtain ⟨⟨hrun, hpsc⟩, htim⟩ := h
  have htim' : s.timerRegs.tim = 0 := htim
  rw [timerRegs_loadTimer, TimerRegs.tick_reload (r := s.timerRegs) hrun hpsc, if_pos htim']
  rfl

theorem timerRegs_of_not_due (h : timerDue s = false) :
    (timer bus s).1.timerRegs = s.timerRegs.tick := by
  unfold timer
  cases hon : bitSet (s.data tcrAddr) Tcr.tss with
  | true => exact (TimerRegs.tick_of_stopped (r := s.timerRegs) hon).symm
  | false =>
    rw [if_neg Bool.false_ne_true]
    by_cases hpsc : s.timerPsc = 0
    · have htim : s.data timAddr ≠ 0 := by
        intro htim
        simp [timerDue, hon, hpsc, htim] at h
      have htim' : s.timerRegs.tim ≠ 0 := htim
      rw [if_pos hpsc, if_neg htim, timerRegs_loadTimer, TimerRegs.tick_reload (r := s.timerRegs) hon hpsc,
        if_neg htim']
      rfl
    · rw [if_neg hpsc, TimerRegs.tick_prescale (r := s.timerRegs) hon hpsc]
      rfl

theorem timerRegs_complete (execPc : Word) (ds : BitVec 8) (n : Nat) (s : State) :
    (complete bus execPc ds n s).1.timerRegs = (timer bus (advance n s)).1.timerRegs := by
  obtain ⟨cycles, insns, heq⟩ := complete_eq_afterSlots bus execPc ds n s
  rw [heq, afterSlots]
  obtain ⟨brc, st1, act, pc, hblock⟩ := blockRepeat_eq execPc
    ((timer bus (advance n s)).1.pc.setWidth 16) n
    { (timer bus (advance n s)).1 with toSeq := countSlots ds n (timer bus (advance n s)).1.toSeq }
  rw [hblock]
  rfl

theorem timerRegs_pass {t : State} (h : atTimer g bus s = some t) :
    (pass g bus s).1.timerRegs = (timer bus t).1.timerRegs := by
  unfold atTimer at h
  split at h
  · cases h
  · rename_i hexec
    rw [pass_of_executes (by simpa using hexec), instruction]
    dsimp only at h ⊢
    unfold repeatOrComplete
    split at h
    · rename_i hrpt
      rw [if_pos hrpt]
      split at h
      · rename_i hlast
        simp only [Bool.and_eq_true, beq_iff_eq] at hlast
        rw [if_neg (by simp [hlast.1]), if_neg (by simp [hlast.2]), timerRegs_complete]
        rw [Option.some.inj h]
      · cases h
    · rename_i hrpt
      rw [if_neg hrpt, timerRegs_complete, Option.some.inj h]

/-! ### Runs -/

/-- The core, showing at each tick whether it requests TINT. -/
def ticks (g : Gates) : Machine State Event Bool where
  step s e := ((step g s e).1, match e with
    | .pass bus => ((atTimer g bus s).map timerDue).toList
    | _ => [])

/-- Only the timer writes its registers: what comes before it in the turn does not, and neither does
the entry of its interrupt. -/
def LeavesTimer (g : Gates) (s : State) (e : Event) : Prop :=
  match e with
  | .pass bus =>
    match atTimer g bus s with
    | some t => t.timerRegs = s.timerRegs ∧ (timerDue t = true →
        (interruptEx bus (loadTimer t (t.data prdAddr)) 19 3).1.timerRegs =
          (loadTimer t (t.data prdAddr)).timerRegs)
    | none => (pass g bus s).1.timerRegs = s.timerRegs
  | e => (step g s e).1.timerRegs = s.timerRegs

instance (g : Gates) (s : State) : ∀ e : Event, Decidable (LeavesTimer g s e)
  | .pass bus => by
    unfold LeavesTimer
    dsimp only
    cases atTimer g bus s <;> infer_instance
  | .request bus vec bit =>
    inferInstanceAs (Decidable ((step g s (.request bus vec bit)).1.timerRegs = s.timerRegs))
  | .wake => inferInstanceAs (Decidable ((step g s .wake).1.timerRegs = s.timerRegs))
  | .poke addr v => inferInstanceAs (Decidable ((step g s (.poke addr v)).1.timerRegs = s.timerRegs))
  | .reset regs => inferInstanceAs (Decidable ((step g s (.reset regs)).1.timerRegs = s.timerRegs))

variable {e : Event}

/-- A step that leaves the registers to the timer either ticks, or leaves them. -/
theorem ticks_step (h : LeavesTimer g s e) :
    (((ticks g).step s e).2 = [s.timerRegs.due] ∧
        ((ticks g).step s e).1.timerRegs = s.timerRegs.tick) ∨
      (((ticks g).step s e).2 = [] ∧ ((ticks g).step s e).1.timerRegs = s.timerRegs) := by
  cases e with
  | pass bus =>
    simp only [LeavesTimer] at h
    cases hat : atTimer g bus s with
    | none =>
      rw [hat] at h
      refine .inr ⟨?_, h⟩
      simp [ticks, hat]
    | some t =>
      rw [hat] at h
      obtain ⟨hregs, hentry⟩ := h
      refine .inl ⟨?_, ?_⟩
      · simp [ticks, hat, timerDue_eq, hregs]
      · change (pass g bus s).1.timerRegs = _
        rw [timerRegs_pass hat, ← hregs]
        cases hdue : timerDue t with
        | true => rw [timer_of_due bus hdue, hentry hdue, timerRegs_of_due hdue]
        | false => exact timerRegs_of_not_due hdue
  | request bus vec bit | wake | poke addr v | reset regs => exact .inr ⟨rfl, h⟩

/-- A running timer counts down the ticks that are left. -/
theorem counts_step (hrun : s.timerRegs.stopped = false) (h : LeavesTimer g s e) :
    Machine.Counts (fun s : State => s.timerRegs.left) s.timerRegs.period s
      ((ticks g).step s e).1 ((ticks g).step s e).2 := by
  rcases ticks_step h with ⟨hshow, hregs⟩ | ⟨hshow, hregs⟩
  · rw [hshow]
    cases hdue : s.timerRegs.due with
    | true =>
      obtain ⟨hzero, hperiod⟩ := TimerRegs.left_tick_of_due hdue
      exact .fire hzero (by rw [hregs, hperiod])
    | false => exact .down (by rw [hregs]; exact TimerRegs.left_tick hrun hdue)
  · rw [hshow]
    exact .within (by rw [hregs])

theorem fixed_step (h : LeavesTimer g s e) :
    ((ticks g).step s e).1.timerRegs.prd = s.timerRegs.prd ∧
      ((ticks g).step s e).1.timerRegs.tcr = s.timerRegs.tcr := by
  rcases ticks_step h with ⟨-, hregs⟩ | ⟨-, hregs⟩
  · rw [hregs]
    exact s.timerRegs.tick_fixed
  · rw [hregs]
    exact ⟨rfl, rfl⟩

/-- The registers of a run that began with `r`: PRD and TCR are still the same. -/
theorem period_eq {r r' : TimerRegs} (h : r'.prd = r.prd ∧ r'.tcr = r.tcr) :
    r'.period = r.period := by
  rw [TimerRegs.period, TimerRegs.period, TimerRegs.tddr, TimerRegs.tddr, h.1, h.2]

theorem not_due_of_stopped {es : List Event} (hrun : (ticks g).Along (LeavesTimer g) s es)
    (hstop : s.timerRegs.stopped) : ∀ o ∈ (ticks g).trace s es, o = false := by
  refine Machine.trace_forall (I := fun s => s.timerRegs.stopped) ?_ ?_ hstop hrun
  · intro s e hstop hleaves
    rw [TimerRegs.stopped, (fixed_step hleaves).2]
    exact hstop
  · intro s e hstop hleaves o ho
    rcases ticks_step hleaves with ⟨hshow, -⟩ | ⟨hshow, -⟩
    · rw [hshow, List.mem_singleton] at ho
      rw [ho, TimerRegs.due, hstop]
      rfl
    · rw [hshow] at ho
      cases ho

/-- The ticks that request TINT in a run with the timer going. -/
theorem due_iff {es : List Event} (hrun : (ticks g).Along (LeavesTimer g) s es)
    (hgo : s.timerRegs.stopped = false) {i : Nat} (hi : i < ((ticks g).trace s es).length) :
    ((ticks g).trace s es)[i]? = some true ↔
      ∃ k, i = s.timerRegs.left + k * s.timerRegs.period := by
  refine Machine.trace_periodic (fun s : State => s.timerRegs.left)
    (I := fun s' => s'.timerRegs.prd = s.timerRegs.prd ∧ s'.timerRegs.tcr = s.timerRegs.tcr)
    ?_ ?_ ⟨rfl, rfl⟩ hrun hi
  · intro s' e hfixed hleaves
    obtain ⟨hprd, htcr⟩ := fixed_step hleaves
    exact ⟨hprd.trans hfixed.1, htcr.trans hfixed.2⟩
  · intro s' e hfixed hleaves
    rw [← period_eq hfixed]
    refine counts_step ?_ hleaves
    rw [TimerRegs.stopped, hfixed.2]
    exact hgo

/-- As long as nothing but the timer writes its registers, two requests of TINT with none between
them are (PRD + 1) * (TDDR + 1) ticks apart, and the second one comes. -/
theorem tint_period {es : List Event} (hrun : (ticks g).Along (LeavesTimer g) s es) {i : Nat}
    (hi : ((ticks g).trace s es)[i]? = some true) :
    (∀ j, i < j → ((ticks g).trace s es)[j]? = some true →
        (∀ k, i < k → k < j → ((ticks g).trace s es)[k]? = some false) →
        j = i + ((s.data prdAddr).toNat + 1) * ((s.data tcrAddr &&& Tcr.tddrMask).toNat + 1)) ∧
      (i + ((s.data prdAddr).toNat + 1) * ((s.data tcrAddr &&& Tcr.tddrMask).toNat + 1) <
          ((ticks g).trace s es).length →
        ((ticks g).trace s es)[i +
          ((s.data prdAddr).toNat + 1) * ((s.data tcrAddr &&& Tcr.tddrMask).toNat + 1)]? =
            some true) := by
  have hgo : s.timerRegs.stopped = false := by
    by_contra hstop
    have hoff := not_due_of_stopped hrun (by simpa using hstop) true (List.mem_of_getElem? hi)
    cases hoff
  have hlt : ∀ {j : Nat} {o : Bool}, ((ticks g).trace s es)[j]? = some o →
      j < ((ticks g).trace s es).length := fun h => (List.getElem?_eq_some_iff.mp h).1
  change (∀ j, i < j → _ → _ → j = i + s.timerRegs.period) ∧
    (i + s.timerRegs.period < _ → ((ticks g).trace s es)[i + s.timerRegs.period]? = _)
  obtain ⟨k, hk⟩ := (due_iff hrun hgo (hlt hi)).mp hi
  have hpos : 0 < s.timerRegs.period := Nat.mul_pos (Nat.succ_pos _) (Nat.succ_pos _)
  have hnext : i + s.timerRegs.period < ((ticks g).trace s es).length →
      ((ticks g).trace s es)[i + s.timerRegs.period]? = some true := by
    intro h
    refine (due_iff hrun hgo h).mpr ⟨k + 1, ?_⟩
    rw [hk, Nat.succ_mul, Nat.add_assoc]
  refine ⟨fun j hij hj hnone => ?_, hnext⟩
  obtain ⟨k', hk'⟩ := (due_iff hrun hgo (hlt hj)).mp hj
  have hafter : k < k' := by
    by_contra hle
    have := Nat.mul_le_mul_right s.timerRegs.period (Nat.le_of_not_lt hle)
    omega
  have hge : i + s.timerRegs.period ≤ j := by
    have := Nat.mul_le_mul_right s.timerRegs.period (Nat.succ_le_of_lt hafter)
    rw [Nat.succ_mul] at this
    omega
  rcases Nat.eq_or_lt_of_le hge with heq | hlt'
  · exact heq.symm
  · -- a request would stand between the two
    have hbetween := hnone _ (Nat.lt_add_of_pos_right hpos) hlt'
    rw [hnext (hlt'.trans (hlt hj))] at hbetween
    cases hbetween

/-- The timer going, with PRD = 2 and TDDR = 1, about to request. -/
def everySix : State :=
  { boot [] with toCpu := setData (setData (setData (boot []).toCpu timAddr 0) prdAddr 2) tcrAddr 1 }

theorem tint_period_six :
    let os := (ticks ⟨false⟩).trace everySix (List.replicate 8 (.pass .quiet))
    (∀ j, 0 < j → os[j]? = some true → (∀ k, 0 < k → k < j → os[k]? = some false) → j = 6) ∧
      os[6]? = some true := by
  have hrun : (ticks ⟨false⟩).Along (LeavesTimer ⟨false⟩) everySix
      (List.replicate 8 (.pass .quiet)) := by decide +kernel
  have h := tint_period hrun (i := 0) (by decide +kernel)
  have hperiod : 0 + ((everySix.data prdAddr).toNat + 1) *
      ((everySix.data tcrAddr &&& Tcr.tddrMask).toNat + 1) = 6 := by decide +kernel
  rw [hperiod] at h
  exact ⟨h.1, h.2 (by decide +kernel)⟩

end Qosmo.C54x
