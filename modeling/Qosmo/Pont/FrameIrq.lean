import Qosmo.Pont.LockStep

/-!
# Qosmo.Pont.FrameIrq

The end-of-service target (`eoi_cible`) against the ARM's services of the TPU frame
interrupt.

Three quantities move together: the ends of service counted so far, a frame service
in progress, a frame interrupt still pending. Their sum `due` is how far the count
can still get with what has been raised.

* The target is never below `due` (`Ahead`) unless a wait timed out, so GO cannot be
  released by the service of an earlier frame.
* The target is never above `due` (`Reached`) as long as every raised interrupt gets
  its own service. Interrupts that merge into one pending bit break that: the
  target counts both, the ARM serves one, and the GO is held back until the timeout.
-/

namespace Qosmo.Pont

open Inth

variable {s : Pont}

/-- The ARM is serving the frame interrupt. -/
def frameInService (s : Pont) : Bool := s.inService && s.inth.lastNum == Inth.tpuFrame

/-- Ends of service counted, plus the ones still to come from what was raised. -/
def due (s : Pont) : Nat :=
  s.inth.frameEoi + s.frameInService.toNat + s.inth.framePending.toNat

/-- The target is not below what can still be counted; and while the interrupt of the
current frame has not had a service of its own, the services begun before it do not
reach the target. -/
structure Ahead (s : Pont) : Prop where
  wf : s.inth.WF
  le : s.due ≤ s.trx.eoiCible
  owed : s.trx.tickPhase = .waiting → s.trx.phaseARecue = true → s.served = false →
    s.inth.frameEoi + (s.frameInService && !s.fresh).toNat + 1 ≤ s.trx.eoiCible

theorem init_ahead : init.Ahead := ⟨reset_wf, by decide, by decide⟩

/-! ### The loop's own moves -/

theorem raiseApi_frame (s : Pont) (m : Done) :
    (s.raiseApi m).inth.framePending = s.inth.framePending ∧
      (s.raiseApi m).inth.lastNum = s.inth.lastNum ∧
      (s.raiseApi m).inth.frameEoi = s.inth.frameEoi ∧
      (s.raiseApi m).inService = s.inService ∧ (s.raiseApi m).fresh = s.fresh ∧
      (s.raiseApi m).served = s.served := by
  rcases raiseApi_cases s m with heq | heq
  · rw [heq]
    exact ⟨rfl, rfl, rfl, rfl, rfl, rfl⟩
  · rw [heq]
    exact ⟨setIrq_other _ (by decide) _, setIrq_lastNum _ _ _,
      setIrq_frameEoi _ _ _, rfl, rfl, rfl⟩

theorem raiseApi_wf (h : s.inth.WF) (m : Done) : (s.raiseApi m).inth.WF := by
  rcases raiseApi_cases s m with heq | heq
  · rw [heq]
    exact h
  · rw [heq]
    exact h.setIrq _ _

/-! ### What is due after each move -/

variable (s)

theorem raiseApi_frameInService (m : Done) : (s.raiseApi m).frameInService = s.frameInService := by
  obtain ⟨-, hlast, -, hin, -⟩ := raiseApi_frame s m
  rw [frameInService, hlast, hin, frameInService]

theorem raiseApi_due (m : Done) : (s.raiseApi m).due = s.due := by
  obtain ⟨hpend, -, heoi, -⟩ := raiseApi_frame s m
  rw [due, hpend, heoi, raiseApi_frameInService, due]

theorem startArm_frame :
    s.startArm.inth.frameEoi = s.inth.frameEoi ∧ s.startArm.frameInService = s.frameInService := by
  refine ⟨setIrq_frameEoi _ _ _, ?_⟩
  simp [frameInService, Pont.startArm, raiseFrame]

theorem startArm_due : s.startArm.due = s.inth.frameEoi + s.frameInService.toNat + 1 := by
  have hpend : s.startArm.inth.framePending := setIrq_frame_up _
  rw [due, hpend, (startArm_frame s).1, (startArm_frame s).2, Bool.toNat_true]

theorem line_due {irq : Irq} (hirq : irq ≠ Inth.tpuFrame) (level : Bool) :
    ({ s with inth := s.inth.setIrq irq level } : Pont).due = s.due := by
  simp only [due, frameInService, setIrq_lastNum, setIrq_frameEoi,
    setIrq_other _ hirq]

theorem lower_due :
    ({ s with inth := s.inth.setIrq Inth.tpuFrame false } : Pont).due
      = s.inth.frameEoi + s.frameInService.toNat
        + (s.inth.setIrq Inth.tpuFrame false).framePending.toNat := by
  simp only [due, frameInService, setIrq_lastNum, setIrq_frameEoi]

variable {s}

variable {offset : Nat}

/-- A service begins, in place of the one that was open: the frame's if it is elected. -/
theorem armRead_num_due (s : Pont) (hnum : Inth.isIrqNum offset) :
    (s.armRead offset).due
      = s.inth.frameEoi
        + if s.inth.ithV = Inth.tpuFrame then 1 else s.inth.framePending.toNat := by
  obtain ⟨hlast, heoi, hpend⟩ := read_irqNum s.inth hnum
  simp only [Pont.armRead, hnum, if_true, due, frameInService, hlast, heoi, hpend, Bool.true_and]
  by_cases hv : s.inth.ithV = Inth.tpuFrame <;> simp [hv]

theorem armRead_other (hwf : s.inth.WF) (hnum : Inth.isIrqNum offset = false) :
    (s.armRead offset).due = s.due ∧ (s.armRead offset).frameInService = s.frameInService := by
  obtain ⟨hlast, heoi, hpend⟩ := read_other hwf hnum
  simp only [Pont.armRead, hnum, Bool.false_eq_true, if_false, due, frameInService, hlast, heoi,
    hpend, and_self]

/-- The service ends, and is counted if it was the frame's. -/
theorem armWrite_eoi_due (s : Pont) {value : Word} (he : Inth.isEoi offset value) :
    (s.armWrite offset value).due
      = (if s.inth.lastNum = Inth.tpuFrame then s.inth.frameEoi + 1 else s.inth.frameEoi)
        + (s.inth.write offset value).framePending.toNat := by
  obtain ⟨-, heoi, -⟩ := write_frame s.inth offset value
  simp only [he, true_and] at heoi
  simp only [Pont.armWrite, he, if_true, due, frameInService, Bool.false_and, Bool.toNat_false,
    heoi, Nat.add_zero]

theorem armWrite_other_due (s : Pont) {value : Word} (he : Inth.isEoi offset value = false) :
    (s.armWrite offset value).due
      = s.inth.frameEoi + s.frameInService.toNat
        + (s.inth.write offset value).framePending.toNat := by
  obtain ⟨hlast, heoi, -⟩ := write_frame s.inth offset value
  simp only [he, Bool.false_eq_true, false_and, if_false] at heoi
  simp only [Pont.armWrite, he, Bool.false_eq_true, if_false, due, frameInService, hlast, heoi]

/-! ### The loop's moves keep the target ahead -/

/-- The API interrupt is no business of the frame interrupt. -/
theorem Ahead.raiseApi (h : s.Ahead) (m : Done) : (s.raiseApi m).Ahead := by
  obtain ⟨-, -, heoi, -, hfresh, hserved⟩ := raiseApi_frame s m
  refine ⟨raiseApi_wf h.wf m, ?_, ?_⟩
  · rw [raiseApi_due, raiseApi_trx]
    exact h.le
  · rw [heoi, raiseApi_frameInService, hfresh, hserved, raiseApi_trx]
    exact h.owed

/-- **Raising the frame interrupt.** The target grows by one, so does what is due. -/
theorem Ahead.startArm (h : s.Ahead) : s.startArm.Ahead := by
  have hle := h.le
  have hcible : s.trx.eoiCible + 1 ≤ s.startArm.trx.eoiCible := by
    simp only [Pont.startArm, raiseFrame]
    split <;> omega
  unfold due at hle
  refine ⟨h.wf.setIrq _ _, ?_, fun _ _ _ => ?_⟩
  · rw [startArm_due]
    omega
  · have hold : (s.frameInService && !s.startArm.fresh).toNat ≤ s.frameInService.toNat := by
      cases s.frameInService <;> simp [Bool.toNat_le]
    rw [(startArm_frame s).1, (startArm_frame s).2]
    omega

theorem Ahead.takeFinal (h : s.Ahead) (m : Done) (rest : List Done) :
    ({ s with fromDsp := rest }.takeFinal m).Ahead :=
  Ahead.raiseApi (s := { s with fromDsp := rest, trx := { s.trx with pontPending := false } })
    ⟨h.wf, h.le, h.owed⟩ m

/-- Before the interrupt of the frame is raised nothing is owed yet. -/
theorem Ahead.startArm_of_le (hwf : s.inth.WF) (hle : s.due ≤ s.trx.eoiCible) : s.startArm.Ahead :=
  Ahead.startArm (s := { s with served := true }) ⟨hwf, hle, by simp⟩

theorem Ahead.awaitPhaseA (h : s.Ahead) : s.awaitPhaseA.1.Ahead := by
  have hawaited := awaited_awaitPhaseA s
  generalize s.awaitPhaseA = r at hawaited ⊢
  cases hawaited with
  | there | missing => exact h
  | phaseA => exact .startArm_of_le h.wf h.le
  | final m rest =>
    have ht := h.takeFinal m rest
    exact .startArm_of_le ht.wf ht.le

/-- A frame starts: nothing is owed before its own interrupt is raised. -/
theorem Ahead.nextFrame (h : s.Ahead) (hp : s.trx.pontPending = false) : s.nextFrame.1.Ahead := by
  have heq : s.nextFrame.1 = (s.advanceFn.sendTick true).1.startWait := by
    simp [Pont.nextFrame, echange, advanceFn, hp]
  rw [heq]
  refine ⟨h.wf, h.le, ?_⟩
  intro _ hrec
  exact absurd hrec Bool.false_ne_true

theorem Ahead.sendGo (h : s.Ahead) : s.sendGo.1.Ahead := by
  have hsent := released_sendGo s
  generalize s.sendGo = r at hsent ⊢
  cases hsent with
  | needless | sent => exact ⟨h.wf, h.le, by simp⟩

theorem Ahead.dspStep (h : s.Ahead) (flags : BitVec 32) : (s.dspStep flags).Ahead := by
  obtain ⟨toDsp, fromDsp, dsp, heq⟩ := dspStep_eq s flags
  rw [heq]
  exact ⟨h.wf, h.le, h.owed⟩

/-! ### The ARM's moves -/

/-- Reading IRQ_NUM turns a pending frame interrupt into a frame service. -/
theorem Ahead.armRead (h : s.Ahead) (offset : Nat) : (s.armRead offset).Ahead := by
  have hle := h.le
  cases hnum : Inth.isIrqNum offset with
  | true =>
    obtain ⟨-, heoi, -⟩ := read_irqNum s.inth hnum
    -- the elected source, if it is the frame interrupt, is pending
    have helected : s.inth.ithV = Inth.tpuFrame → s.inth.framePending := by
      intro hv
      have := h.wf.elected (by rw [hv]; decide)
      rw [hv] at this
      exact (Bool.and_eq_true_iff.mp this).1
    have hdue := armRead_num_due s hnum
    simp only [Pont.armRead, hnum, if_true] at hdue ⊢
    refine ⟨h.wf.read offset, ?_, fun hw hr hs => ?_⟩
    · rw [hdue]
      unfold due at hle
      by_cases hv : s.inth.ithV = Inth.tpuFrame
      · rw [helected hv, Bool.toNat_true] at hle
        rw [if_pos hv]
        exact Nat.le_trans (by omega) hle
      · rw [if_neg hv]
        exact Nat.le_trans (by omega) hle
    · have := h.owed hw hr hs
      simp only [heoi, Bool.not_true, Bool.and_false, Bool.toNat_false]
      omega
  | false =>
    obtain ⟨-, heoi, -⟩ := read_other h.wf hnum
    obtain ⟨hdue, hin⟩ := armRead_other h.wf hnum
    simp only [Pont.armRead, hnum, Bool.false_eq_true, if_false] at hdue hin ⊢
    refine ⟨h.wf.read offset, ?_, ?_⟩
    · rw [hdue]
      exact hle
    · rw [hin, heoi]
      exact h.owed

/-- Each IRQ end of service follows its own IRQ_NUM read. -/
def EoiPaired (s : Pont) (e : Event) : Prop :=
  ∀ offset value, e = .armWrite offset value → Inth.isEoi offset value = true →
    s.inService = true

/-- Ending a service counts it; any other write at most withdraws the interrupt. -/
theorem Ahead.armWrite (h : s.Ahead) (offset : Nat) (value : Word)
    (hpair : Inth.isEoi offset value → s.inService) :
    (s.armWrite offset value).Ahead := by
  obtain ⟨hlast, heoi, hpend⟩ := write_frame s.inth offset value
  have hle := h.le
  unfold due at hle
  have hdrop : (s.inth.write offset value).framePending.toNat ≤ s.inth.framePending.toNat := by
    rw [hpend]
    cases s.inth.framePending <;> simp [Bool.toNat_le]
  cases he : Inth.isEoi offset value with
  | true =>
    have hin := hpair he
    have hdue := armWrite_eoi_due s he
    simp only [he, true_and] at heoi
    simp only [Pont.armWrite, he, if_true] at hdue ⊢
    refine ⟨h.wf.write offset value, ?_, fun hw hr hs => ?_⟩
    · rw [hdue]
      by_cases hv : s.inth.lastNum = Inth.tpuFrame
      · simp only [frameInService, hin, hv, beq_self_eq_true, Bool.true_and, Bool.toNat_true] at hle
        rw [if_pos hv]
        exact Nat.le_trans (by omega) hle
      · rw [if_neg hv]
        exact Nat.le_trans (by omega) hle
    · simp only [Bool.or_eq_false_iff] at hs
      have hold := h.owed hw hr hs.1
      simp only [frameInService, Bool.false_and, Bool.toNat_false, heoi]
      by_cases hv : s.inth.lastNum = Inth.tpuFrame
      · -- a service that leaves the frame unserved was begun before its interrupt
        have hfresh : s.fresh = false := by simpa [hin, hv] using hs.2
        simp only [frameInService, hin, hv, hfresh, beq_self_eq_true, Bool.true_and,
          Bool.not_false, Bool.toNat_true] at hold
        simp only [hv, if_true]
        omega
      · simp only [hv, if_false]
        omega
  | false =>
    have hdue := armWrite_other_due s he
    simp only [he, Bool.false_eq_true, false_and, if_false] at heoi
    simp only [Pont.armWrite, he, Bool.false_eq_true, if_false] at hdue ⊢
    refine ⟨h.wf.write offset value, ?_, ?_⟩
    · rw [hdue]
      exact Nat.le_trans (by omega) hle
    · simpa only [frameInService, hlast, heoi] using h.owed

/-- The pulse of the frame interrupt ends: at most the interrupt is withdrawn. -/
theorem Ahead.frameIrqLower (h : s.Ahead) :
    ({ s with inth := s.inth.setIrq Inth.tpuFrame false } : Pont).Ahead := by
  have hle := h.le
  unfold due at hle
  refine ⟨h.wf.setIrq _ _, ?_, ?_⟩
  · have hdrop : (s.inth.setIrq Inth.tpuFrame false).framePending.toNat
        ≤ s.inth.framePending.toNat := by
      rw [setIrq_frame_down]
      cases s.inth.framePending <;> simp [Bool.toNat_le]
    rw [lower_due]
    exact Nat.le_trans (by omega) hle
  · simpa only [frameInService, setIrq_lastNum, setIrq_frameEoi] using h.owed

theorem Ahead.line (h : s.Ahead) {irq : Irq} (hirq : irq ≠ Inth.tpuFrame) (level : Bool) :
    ({ s with inth := s.inth.setIrq irq level } : Pont).Ahead := by
  refine ⟨h.wf.setIrq _ _, ?_, ?_⟩
  · rw [line_due s hirq]
    exact h.le
  · simpa only [frameInService, setIrq_lastNum, setIrq_frameEoi] using h.owed

/-! ### Timeouts -/

variable (s)

theorem takeFinal_timeouts (m : Done) (rest : List Done) :
    ({ s with fromDsp := rest }.takeFinal m).trx.eoiTimeouts = s.trx.eoiTimeouts := by
  simp [takeFinal]

theorem awaitPhaseA_timeouts : s.awaitPhaseA.1.trx.eoiTimeouts = s.trx.eoiTimeouts := by
  have hawaited := awaited_awaitPhaseA s
  generalize s.awaitPhaseA = r at hawaited ⊢
  cases hawaited with
  | there | missing | phaseA => rfl
  | final m rest => exact takeFinal_timeouts s m rest

theorem sendGo_timeouts : s.sendGo.1.trx.eoiTimeouts = s.trx.eoiTimeouts := by
  unfold sendGo
  split <;> rfl

theorem timeout_timeouts : s.timeout.trx.eoiTimeouts = s.trx.eoiTimeouts + 1 := by
  simp only [timeout]
  split <;> rfl

theorem tickWaiting_timeouts : s.trx.eoiTimeouts ≤ s.tickWaiting.1.trx.eoiTimeouts := by
  have hawait := awaitPhaseA_timeouts s
  have hwaited := waited_tickWaiting s
  generalize s.tickWaiting = q at hwaited ⊢
  cases hwaited with
  | waits => exact hawait.ge
  | done => exact (sendGo_timeouts _).ge.trans' hawait.ge
  | late =>
    rw [sendGo_timeouts, timeout_timeouts, hawait]
    exact Nat.le_succ _

theorem late_timeouts : s.timeout.sendGo.1.trx.eoiTimeouts ≠ 0 := by
  rw [sendGo_timeouts, timeout_timeouts]
  exact Nat.succ_ne_zero _

variable {s}

theorem Exchanged.timeouts {send : Pont → Pont × List PontObs} {r : Pont × List PontObs}
    (h : Exchanged s send r) (hsend : ∀ t, (send t).1.trx.eoiTimeouts = t.trx.eoiTimeouts) :
    r.1.trx.eoiTimeouts = s.trx.eoiTimeouts := by
  cases h with
  | free => exact hsend s
  | busy => rfl
  | answered m rest => exact (hsend _).trans (takeFinal_timeouts s m rest)

theorem nextFrame_timeouts (s : Pont) : s.nextFrame.1.trx.eoiTimeouts = s.trx.eoiTimeouts :=
  (exchanged s.advanceFn (·.sendTick true)).timeouts fun _ => rfl

theorem step_timeouts (s : Pont) (e : Event) :
    s.trx.eoiTimeouts ≤ (s.step e).1.trx.eoiTimeouts := by
  have hstep := stepped_step s e
  generalize s.step e = r at hstep ⊢
  cases hstep with
  | waiting => exact tickWaiting_timeouts s
  | frame _ _ hex => exact (hex.timeouts nextFrame_timeouts).ge
  | bootTick _ hex | bootCollect _ hex => exact (hex.timeouts fun _ => rfl).ge
  | dsp flags => rw [(dspStep_frame s flags).1]
  | armRead => simp only [armRead]; split <;> exact le_refl _
  | armWrite => simp only [armWrite]; split <;> exact le_refl _
  | _ => exact le_refl _

/-- A step that counts no timeout gives up on no phase A. -/
theorem inTime_of_timeouts {e : Event} (h : s.Sync) (hto : (s.step e).1.trx.eoiTimeouts = 0) :
    InTime s e := by
  rintro rfl ⟨hw, hrec, hf, hlate⟩
  have hawait : s.awaitPhaseA = (s, []) := by simp [awaitPhaseA, hrec, collectPhaseA, hf]
  have hstep : s.step .tick = s.tickWaiting := by simp [step, h.running hw, tdmaTick, hw]
  have hwaited := waited_tickWaiting s
  rw [hstep] at hto
  generalize s.tickWaiting = q at hto hwaited
  cases hwaited with
  | waits hpat =>
    -- the budget is spent and phase A is missing: no patience is left
    simp only [hawait, patient, hrec, Bool.and_false, Bool.false_or, Bool.and_eq_true,
      decide_eq_true_eq] at hpat
    omega
  | done hfini => simp [hawait, fini, hrec] at hfini
  | late => exact late_timeouts _ hto

/-! ### GO comes after the frame's own service -/

/-- A GO sent after phase A of its frame, once the ARM served the frame's own interrupt
or masks it. -/
def Go.Earned (g : Go) : Prop := g.phaseA = true ∧ (g.masked = true ∨ g.served = true)

theorem awaitPhaseA_no_go (s : Pont) (g : Go) : .goSent g ∉ s.awaitPhaseA.2 := by
  have hawaited := awaited_awaitPhaseA s
  generalize s.awaitPhaseA = r at hawaited ⊢
  cases hawaited <;> simp

theorem tickWaiting_go (hs : s.Sync) (ha : s.Ahead) (hw : s.trx.tickPhase = .waiting)
    (hto : s.tickWaiting.1.trx.eoiTimeouts = 0) {g : Go} (hg : .goSent g ∈ s.tickWaiting.2) :
    Go.Earned g := by
  obtain ⟨hgood, hw', -⟩ := awaitPhaseA_good hs hw
  have ha' := ha.awaitPhaseA
  have hno := awaitPhaseA_no_go s g
  have hwaited := waited_tickWaiting s
  generalize s.tickWaiting = q at hto hg hwaited
  generalize s.awaitPhaseA = r at *
  cases hwaited with
  | waits => exact absurd hg hno
  | late => exact absurd hto (late_timeouts _)
  | done hfini =>
    have hgo : .goSent g ∈ r.1.sendGo.2 := (List.mem_append.mp hg).resolve_left hno
    have hsent := released_sendGo r.1
    generalize r.1.sendGo = q at hgo hsent
    cases hsent with
    | needless => cases hgo
    | sent =>
      obtain rfl : g = r.1.goOf := by simpa using hgo
      simp only [fini, Bool.and_eq_true, Bool.or_eq_true, decide_eq_true_eq] at hfini
      refine ⟨by simp [goOf, hgood.sync.gotA hw' hfini.1], ?_⟩
      rcases hfini.2 with hreach | hmask
      · -- the count has reached the target: the frame's own service is over
        refine .inr ?_
        by_contra hserved
        rw [Bool.not_eq_true] at hserved
        have := ha'.owed hw' hfini.1 hserved
        omega
      · exact .inl hmask

theorem Exchanged.no_go {send : Pont → Pont × List PontObs} {r : Pont × List PontObs} {g : Go}
    (h : Exchanged s send r) (hsend : ∀ t, .goSent g ∉ (send t).2) : .goSent g ∉ r.2 := by
  cases h with
  | free => exact hsend s
  | busy => exact List.not_mem_nil
  | answered m rest => simpa using hsend _

theorem nextFrame_no_go (s : Pont) (g : Go) : .goSent g ∉ s.nextFrame.2 :=
  (exchanged s.advanceFn (·.sendTick true)).no_go fun t => by simp [sendTick]

theorem step_ahead (ha : s.Ahead) (e : Event) (hpair : EoiPaired s e)
    (hto : (s.step e).1.trx.eoiTimeouts = 0) : (s.step e).1.Ahead := by
  have hstep := stepped_step s e
  generalize s.step e = r at hstep hto ⊢
  cases hstep with
  | nothing => exact ha
  | waiting =>
    have ha' := ha.awaitPhaseA
    have hwaited := waited_tickWaiting s
    generalize s.tickWaiting = q at hto hwaited ⊢
    cases hwaited with
    | waits => exact ⟨ha'.wf, ha'.le, ha'.owed⟩
    | done => exact ha'.sendGo
    | late => exact absurd hto (late_timeouts _)
  | frame _ _ hex => exact hex.keeps ha ha.takeFinal fun _ ht hp => ht.nextFrame hp
  | bootTick _ hex => exact hex.keeps ha ha.takeFinal fun _ ht _ => ⟨ht.wf, ht.le, ht.owed⟩
  | bootCollect _ hex => exact hex.keeps ha ha.takeFinal fun _ ht _ => ht
  | dsp flags => exact ha.dspStep flags
  | frameIrqLower => exact ha.frameIrqLower
  | line irq level hirq => exact ha.line hirq level
  | armRead offset => exact ha.armRead offset
  | armWrite offset value => exact ha.armWrite offset value (hpair offset value rfl)
  | tdmaStart | tpu | dcch => exact ⟨ha.wf, ha.le, ha.owed⟩

theorem step_go (hs : s.Sync) (ha : s.Ahead) {e : Event}
    (hto : (s.step e).1.trx.eoiTimeouts = 0) {g : Go} (hg : .goSent g ∈ (s.step e).2) :
    Go.Earned g := by
  have hstep := stepped_step s e
  generalize s.step e = r at hstep hto hg
  cases hstep with
  | waiting hph => exact tickWaiting_go hs ha hph hto hg
  | frame _ _ hex => exact absurd hg (hex.no_go fun t => nextFrame_no_go t g)
  | bootTick _ hex => exact absurd hg (hex.no_go fun t => by simp [sendTick])
  | bootCollect _ hex => exact absurd hg (hex.no_go fun _ => List.not_mem_nil)
  | _ => cases hg

/-- Over every run of the frame loop in which each IRQ end of service follows its own
IRQ_NUM read and no wait has timed out: every GO was sent after phase A of its frame,
with the frame interrupt masked or after the ARM completed a service begun once the
interrupt of that very frame had been raised. -/
theorem go_after_own_service (es : List Event) (hpair : machine.Along EoiPaired init es)
    (hto : (machine.final init es).trx.eoiTimeouts = 0) :
    ∀ g, .goSent g ∈ machine.trace init es →
      g.phaseA = true ∧ (g.masked = true ∨ g.served = true) := by
  have hC := hpair.and (Machine.along_of_final_zero (M := machine) step_timeouts hto)
  have hstep : ∀ t e, t.Sync ∧ t.Ahead → EoiPaired t e ∧ (t.step e).1.trx.eoiTimeouts = 0 →
      (machine.step t e).1.Sync ∧ (machine.step t e).1.Ahead :=
    fun t e ht hc => ⟨(step_good ht.1 e (inTime_of_timeouts ht.1 hc.2)).sync,
      step_ahead ht.2 e hc.1 hc.2⟩
  have htrace := Machine.trace_forall (M := machine)
    (P := fun o => ∀ g, o = .goSent g → Go.Earned g) hstep
    (fun t e ht hc o ho g hog => step_go ht.1 ht.2 hc.2 (hog ▸ ho)) ⟨init_sync, init_ahead⟩ hC
  exact fun g hg => htrace _ hg g rfl

/-- One frame, with the ARM serving its interrupt before GO goes out. -/
def servedFrame : List Event :=
  [.tdmaStart, .tick, .dsp 0, .dsp 0, .tick, .armRead 0x10, .armWrite 0x14 1, .tick]

/-- The GO of a served frame. -/
theorem go_after_own_service_one_frame :
    let g : Go := ⟨1, 1, true, false, true⟩
    .goSent g ∈ machine.trace init servedFrame ∧
      (g.phaseA = true ∧ (g.masked = true ∨ g.served = true)) :=
  have hpair : machine.Along EoiPaired init servedFrame := by
    simp only [servedFrame, Machine.along_cons, Machine.along_nil, EoiPaired, and_true]
    refine ⟨by simp, by simp, by simp, by simp, by simp, by simp, fun _ _ _ _ => ?_, by simp⟩
    decide +kernel
  have hgo : .goSent ⟨1, 1, true, false, true⟩ ∈ machine.trace init servedFrame := by
    decide +kernel
  ⟨hgo, go_after_own_service servedFrame hpair (by decide +kernel) _ hgo⟩

/-! ### The target is reached once nothing is left to serve

The converse bound needs every raised interrupt to get its own end of service. -/

/-- What was raised and is not served yet is enough to reach the target. -/
structure Reached (s : Pont) : Prop where
  wf : s.inth.WF
  le : s.trx.eoiCible ≤ s.due

theorem init_reached : init.Reached := ⟨reset_wf, by decide⟩

/-- No frame interrupt is lost at this step: none is raised while another is pending
(the two would merge), none is withdrawn from IT_REG or by the end of an unlatched
pulse, and no frame service is dropped for a new IRQ_NUM read. -/
def Unmerged (s : Pont) : Event → Prop
  | .tick => s.trx.tickPhase = .waiting → s.trx.phaseARecue = false → s.fromDsp ≠ [] →
      s.inth.framePending = false
  | .frameIrqLower => s.inth.framePending = true → s.inth.edge Inth.tpuFrame = true
  | .armRead offset => Inth.isIrqNum offset = true → s.frameInService = false
  | .armWrite offset value => offset = 0 → s.inth.framePending = true → bitSet value 4 = true
  | _ => True

section

variable (h : s.Reached)

include h

theorem Reached.raiseApi (m : Done) : (s.raiseApi m).Reached := by
  refine ⟨raiseApi_wf h.wf m, ?_⟩
  rw [raiseApi_due, raiseApi_trx]
  exact h.le

/-- Raising an interrupt that is not pending yet: target and due both grow by one. -/
theorem Reached.startArm (hno : s.inth.framePending = false) : s.startArm.Reached := by
  have hle := h.le
  refine ⟨h.wf.setIrq _ _, ?_⟩
  simp only [due, hno, Bool.toNat_false] at hle
  rw [startArm_due]
  simp only [Pont.startArm, raiseFrame]
  split <;> omega

theorem Reached.takeFinal (m : Done) (rest : List Done) :
    ({ s with fromDsp := rest }.takeFinal m).Reached :=
  Reached.raiseApi (s := { s with fromDsp := rest, trx := { s.trx with pontPending := false } })
    ⟨h.wf, h.le⟩ m

theorem Reached.awaitPhaseA
    (hno : s.trx.phaseARecue = false → s.fromDsp ≠ [] → s.inth.framePending = false) :
    s.awaitPhaseA.1.Reached := by
  have hawaited := awaited_awaitPhaseA s
  generalize s.awaitPhaseA = r at hawaited ⊢
  cases hawaited with
  | there | missing => exact h
  | phaseA m rest hrec hf =>
    have hpend := hno hrec (by simp [hf])
    exact Reached.startArm (s := { s with
      fromDsp := rest, trx := { s.trx with phaseARecue := true }, gotA := some m.id })
      ⟨h.wf, h.le⟩ hpend
  | final m rest hrec hf =>
    have hpend := hno hrec (by simp [hf])
    have ht := h.takeFinal m rest
    have htp : ({ s with fromDsp := rest }.takeFinal m).inth.framePending = false := by
      rw [Pont.takeFinal, (raiseApi_frame _ m).1]
      exact hpend
    exact Reached.startArm ⟨ht.wf, ht.le⟩ htp

/-- After a timeout the target is the count itself. -/
theorem Reached.timeout : s.timeout.Reached := by
  simp only [Pont.timeout]
  split
  · exact ⟨h.wf, by simp only [due]; omega⟩
  · exact ⟨h.wf.setIrq _ _, by simp only [due]; omega⟩

theorem Reached.sendGo : s.sendGo.1.Reached := by
  have hsent := released_sendGo s
  generalize s.sendGo = r at hsent ⊢
  cases hsent with
  | needless | sent => exact ⟨h.wf, h.le⟩

theorem Reached.nextFrame : s.nextFrame.1.Reached := by
  have hadv : s.advanceFn.Reached := ⟨h.wf, h.le⟩
  have he := (exchanged s.advanceFn (·.sendTick true)).keeps hadv hadv.takeFinal
    fun _ ht _ => ⟨ht.wf, ht.le⟩
  exact ⟨he.wf, he.le⟩

/-- Reading IRQ_NUM turns a pending frame interrupt into a frame service, unless a frame
service was still open. -/
theorem Reached.armRead (offset : Nat)
    (hopen : Inth.isIrqNum offset → s.frameInService = false) :
    (s.armRead offset).Reached := by
  have hle := h.le
  have hcible : (s.armRead offset).trx.eoiCible = s.trx.eoiCible := by
    unfold Pont.armRead
    split <;> rfl
  have hwf : (s.armRead offset).inth.WF := by
    unfold Pont.armRead
    split <;> exact h.wf.read offset
  refine ⟨hwf, ?_⟩
  rw [hcible]
  cases hnum : Inth.isIrqNum offset with
  | true =>
    simp only [due, hopen hnum, Bool.toNat_false] at hle
    have hone := Bool.toNat_le s.inth.framePending
    rw [armRead_num_due s hnum]
    split <;> omega
  | false =>
    rw [(armRead_other h.wf hnum).1]
    exact hle

theorem Reached.armWrite (offset : Nat) (value : Word)
    (hkeep : offset = 0 → s.inth.framePending → bitSet value 4) :
    (s.armWrite offset value).Reached := by
  obtain ⟨-, -, hpend⟩ := write_frame s.inth offset value
  have hle := h.le
  simp only [due] at hle
  have hsame : (s.inth.write offset value).framePending = s.inth.framePending := by
    rw [hpend]
    cases hp : s.inth.framePending with
    | false => rfl
    | true =>
      by_cases h0 : offset = 0
      · simp [h0, hkeep h0 hp]
      · simp [h0]
  have hcible : (s.armWrite offset value).trx.eoiCible = s.trx.eoiCible := by
    unfold Pont.armWrite
    split <;> rfl
  have hwf : (s.armWrite offset value).inth.WF := by
    unfold Pont.armWrite
    split <;> exact h.wf.write offset value
  refine ⟨hwf, ?_⟩
  rw [hcible]
  cases he : Inth.isEoi offset value with
  | true =>
    rw [armWrite_eoi_due s he, hsame]
    by_cases hv : s.inth.lastNum = Inth.tpuFrame
    · have hone := Bool.toNat_le s.frameInService
      rw [if_pos hv]
      omega
    · simp only [frameInService, beq_eq_false_iff_ne.mpr hv, Bool.and_false, Bool.toNat_false] at hle
      rw [if_neg hv]
      omega
  | false =>
    rw [armWrite_other_due s he, hsame]
    exact hle

theorem step_reached (e : Event) (hu : Unmerged s e) : (s.step e).1.Reached := by
  have hstep := stepped_step s e
  generalize s.step e = r at hstep ⊢
  cases hstep with
  | nothing => exact h
  | waiting hph =>
    have hr := h.awaitPhaseA (hu hph)
    have hwaited := waited_tickWaiting s
    generalize s.tickWaiting = q at hwaited ⊢
    cases hwaited with
    | waits => exact ⟨hr.wf, hr.le⟩
    | done => exact hr.sendGo
    | late => exact hr.timeout.sendGo
  | frame _ _ hex => exact hex.keeps h h.takeFinal fun _ ht _ => ht.nextFrame
  | bootTick _ hex => exact hex.keeps h h.takeFinal fun _ ht _ => ⟨ht.wf, ht.le⟩
  | bootCollect _ hex => exact hex.keeps h h.takeFinal fun _ ht _ => ht
  | dsp flags =>
    obtain ⟨toDsp, fromDsp, dsp, heq⟩ := dspStep_eq s flags
    rw [heq]
    exact ⟨h.wf, h.le⟩
  | frameIrqLower =>
    refine ⟨h.wf.setIrq _ _, ?_⟩
    have hkeep : (s.inth.setIrq Inth.tpuFrame false).framePending = s.inth.framePending := by
      rw [setIrq_frame_down]
      cases hp : s.inth.framePending with
      | false => rfl
      | true => simp [hu hp]
    rw [lower_due, hkeep]
    exact h.le
  | line irq level hirq =>
    refine ⟨h.wf.setIrq _ _, ?_⟩
    rw [line_due s hirq]
    exact h.le
  | armRead offset => exact h.armRead offset hu
  | armWrite offset value => exact h.armWrite offset value hu
  | tdmaStart | tpu | dcch => exact ⟨h.wf, h.le⟩

end

/-- In every run that loses no frame interrupt: once phase A of the current frame is
received and the frame interrupt is unmasked, no longer pending and not in service,
the end-of-service count has reached its target. -/
theorem target_reached_when_served (es : List Event) (h : machine.Along Unmerged init es) :
    let s := machine.final init es
    s.trx.tickPhase = .waiting → s.trx.phaseARecue = true →
      s.inth.irqMasked Inth.tpuFrame = false → s.inth.framePending = false →
      s.frameInService = false → s.trx.eoiCible ≤ s.inth.frameEoi := by
  intro s _ _ _ hpend hserv
  have hr : s.Reached := Machine.invariant (M := machine) (I := Reached)
    (fun t e ht hu => step_reached ht e hu) init_reached h
  simpa [due, hpend, hserv] using hr.le

/-- The frame of `servedFrame`, up to the end of its service. -/
theorem target_reached_one_frame :
    let s := machine.final init (servedFrame.take 7)
    s.trx.tickPhase = .waiting ∧ s.trx.phaseARecue = true ∧ s.trx.eoiCible ≤ s.inth.frameEoi :=
  ⟨by decide +kernel, by decide +kernel,
    target_reached_when_served (servedFrame.take 7)
      (by
        simp only [servedFrame, List.take, Machine.along_cons, Machine.along_nil, Unmerged, and_true]
        decide +kernel)
      (by decide +kernel) (by decide +kernel) (by decide +kernel) (by decide +kernel)
      (by decide +kernel)⟩

/-- Frame 1 is played with the frame interrupt masked. The ARM unmasks it but has not
served it when frame 2 raises it again: one pending bit for two interrupts. The ARM
serves it once and has nothing left to do, the target is still one away, and the loop
waits on. -/
theorem merged_interrupts_hold_go :
    let s := machine.final init
      [.tdmaStart, .tick, .dsp 0, .dsp 0, .armWrite 0x08 0x10, .tick, .dsp 0, .dsp 0,
        .armWrite 0x08 0, .tick, .dsp 0, .dsp 0, .tick, .armRead 0x10, .armWrite 0x14 1]
    s.trx.tickPhase = .waiting ∧ s.trx.phaseARecue = true ∧
      s.inth.irqMasked Inth.tpuFrame = false ∧ s.inth.framePending = false ∧
      s.frameInService = false ∧ s.inth.frameEoi = 1 ∧ s.trx.eoiCible = 2 ∧ s.patient = true := by
  decide +kernel

end Qosmo.Pont
