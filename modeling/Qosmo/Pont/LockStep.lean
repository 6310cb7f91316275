import Qosmo.Pont.Moves

/-!
# Qosmo.Pont.LockStep

The bridge protocol never confuses two answers of the DSP, as long as no wait for
phase A runs out.

`Link` is the protocol seen from above: what QEMU is waiting for, where the DSP
stands and what the socket holds, in the eight combinations a frame goes through.
`Sync` ties the source's flags (`pont_pending`, `tick_phase`, `phase_a_recue`) to it.

The lock-step wait at the start of a frame takes *any* DONE for the final one: it
does not look at the PHASE_A bit. That is harmless in the eight combinations, but a
wait for phase A that runs out sends GO and goes to that wait with DONE|PHASE_A
still to come. `late_phase_a_taken_for_done` is such a run.
-/

namespace Qosmo.Pont

variable {s : Pont}

/-! ### The protocol from above -/

/-- What QEMU is waiting for, and the number of the TICK concerned. -/
inductive Await
  | nothing
  | final (id : Nat)
  | phaseA (id : Nat)
  | arm (id : Nat)
  deriving Repr, DecidableEq

/-- The stages of a TICK: QEMU, the DSP, the two directions of the socket. -/
inductive Link : Await → Dsp → List ToDsp → List Done → Prop
  | free : Link .nothing .idle [] []
  /-- The TICK is on its way, perhaps behind the announcement of a channel. -/
  | queued {a : Await} {id fn : Nat} {b : BitVec 32} {off : Word} {pre : List ToDsp}
      (ha : a = if ToDsp.twoPhase b then .phaseA id else .final id)
      (hpre : ∀ m ∈ pre, ∃ tn genre ss, m = .dcch tn genre ss) :
      Link a .idle (pre ++ [.tick id fn b off]) []
  | isr (id : Nat) : Link (.phaseA id) (.isr id) [] []
  | answered {m : Done} (hm : m.phaseA = true) : Link (.phaseA m.id) (.waitGo m.id) [] [m]
  | waitArm (id : Nat) : Link (.arm id) (.waitGo id) [] []
  | released (id fn : Nat) : Link (.final id) (.waitGo id) [.go fn] []
  | playing (id : Nat) : Link (.final id) (.play id) [] []
  | finished {m : Done} (hm : m.phaseA = false) : Link (.final m.id) .idle [] [m]

/-- What the source's flags say QEMU is waiting for. -/
def await (s : Pont) : Await :=
  if s.trx.pontPending then
    match s.trx.tickPhase with
    | .frameStart => .final s.ticks
    | .waiting => if s.trx.phaseARecue then .arm s.ticks else .phaseA s.ticks
  else .nothing

/-- The frame loop and the DSP are in step. -/
structure Sync (s : Pont) : Prop where
  link : Link s.await s.dsp s.toDsp s.fromDsp
  pending : s.trx.tickPhase = .waiting → s.trx.pontPending = true
  running : s.trx.tickPhase = .waiting → s.trx.tdmaRunning = true
  go : s.trx.tickPhase = .waiting → s.trx.goInutile = false
  gotA : s.trx.tickPhase = .waiting → s.trx.phaseARecue = true → s.gotA = some s.ticks

theorem init_sync : init.Sync :=
  ⟨.free, by decide, by decide, by decide, by decide⟩

/-! ### Small facts about the messages -/

theorem tickB_not_twoPhase (t : TpuRegs) : ToDsp.twoPhase (tickB t).2 = false := by
  unfold tickB
  split <;> simp [ToDsp.twoPhase, bitSet, ToDsp.irqTrame]

/-- The two-phase flag of a TICK is the one `pont_echange` was asked for. -/
theorem twoPhase_sent (t : TpuRegs) (deux : Bool) :
    ToDsp.twoPhase (if deux then (tickB t).2 ||| ToDsp.deuxPhases else (tickB t).2) = deux := by
  have h := tickB_not_twoPhase t
  cases deux with
  | false => simpa using h
  | true => simp [ToDsp.twoPhase, bitSet, ToDsp.deuxPhases]

theorem phaseA_of_set (flags : BitVec 32) (id : Nat) :
    (Done.mk (flags ||| 0x10) id).phaseA := by
  simp [Done.phaseA, bitSet]

theorem phaseA_of_clear (flags : BitVec 32) (id : Nat) :
    (Done.mk (flags &&& ~~~0x10) id).phaseA = false := by
  simp [Done.phaseA, bitSet]

/-! ### The DSP's moves -/

theorem dspStep_link (h : Link s.await s.dsp s.toDsp s.fromDsp) (flags : BitVec 32) :
    Link s.await (s.dspStep flags).dsp (s.dspStep flags).toDsp (s.dspStep flags).fromDsp := by
  generalize ha : s.await = a at h ⊢
  generalize hd : s.dsp = d at h
  generalize ht : s.toDsp = t at h
  generalize hf : s.fromDsp = f at h
  cases h with
  | free => simpa [dspStep, hd, ht, hf] using Link.free
  | @queued _ id fn b off pre hq hpre =>
    cases pre with
    | nil =>
      simp only [dspStep, hd, ht, hf, List.nil_append]
      cases hb : ToDsp.twoPhase b <;> simp only [hb, if_true, if_false, Bool.false_eq_true] at hq ⊢
      · exact hq ▸ .playing id
      · exact hq ▸ .isr id
    | cons m pre =>
      obtain ⟨tn, genre, ss, rfl⟩ := hpre m (by simp)
      simp only [dspStep, hd, ht, hf, List.cons_append]
      exact .queued hq fun m hm => hpre m (by simp [hm])
  | isr id =>
    simp only [dspStep, hd, ht, hf, List.nil_append]
    exact .answered (m := ⟨flags ||| 0x10, id⟩) (phaseA_of_set flags id)
  | answered hm => simpa [dspStep, hd, ht, hf] using Link.answered hm
  | waitArm id => simpa [dspStep, hd, ht, hf] using Link.waitArm id
  | released id fn => simpa [dspStep, hd, ht, hf] using Link.playing id
  | playing id =>
    simp only [dspStep, hd, ht, hf, List.nil_append]
    exact .finished (m := ⟨flags &&& ~~~0x10, id⟩) (phaseA_of_clear flags id)
  | finished hm => simpa [dspStep, hd, ht, hf] using Link.finished hm

theorem dspStep_frame (s : Pont) (flags : BitVec 32) :
    (s.dspStep flags).trx = s.trx ∧ (s.dspStep flags).ticks = s.ticks ∧
      (s.dspStep flags).gotA = s.gotA := by
  obtain ⟨toDsp, fromDsp, dsp, heq⟩ := dspStep_eq s flags
  rw [heq]
  exact ⟨rfl, rfl, rfl⟩

theorem Sync.dspStep (h : s.Sync) (flags : BitVec 32) : (s.dspStep flags).Sync := by
  obtain ⟨htrx, hticks, hgot⟩ := dspStep_frame s flags
  have hawait : (s.dspStep flags).await = s.await := by simp only [await, htrx, hticks]
  refine ⟨?_, ?_, ?_, ?_, ?_⟩
  · rw [hawait]; exact dspStep_link h.link flags
  all_goals rw [htrx]
  · exact h.pending
  · exact h.running
  · exact h.go
  · rw [hticks, hgot]; exact h.gotA

/-! ### What QEMU finds in the socket -/

variable {d : Dsp} {t : List ToDsp}

theorem Link.nothing_inv {f : List Done}
    (h : Link .nothing d t f) : d = .idle ∧ t = [] ∧ f = [] := by
  generalize ha : Await.nothing = a at h
  cases h with
  | free => exact ⟨rfl, rfl, rfl⟩
  | queued hq => rw [hq] at ha; split at ha <;> cases ha
  | _ => cases ha

/-- Waiting for the final DONE, the first message found is that one. -/
theorem Link.final_inv {id : Nat} {m : Done} {rest : List Done}
    (h : Link (.final id) d t (m :: rest)) :
    d = .idle ∧ t = [] ∧ rest = [] ∧ m.id = id ∧ m.phaseA = false := by
  cases h with
  | finished hm => exact ⟨rfl, rfl, rfl, rfl, hm⟩

/-- Waiting for phase A, the first message found is that one. -/
theorem Link.phaseA_inv {id : Nat} {m : Done} {rest : List Done}
    (h : Link (.phaseA id) d t (m :: rest)) :
    d = .waitGo id ∧ t = [] ∧ rest = [] ∧ m.id = id ∧ m.phaseA := by
  cases h with
  | answered hm => exact ⟨rfl, rfl, rfl, rfl, hm⟩

theorem Link.arm_inv {id : Nat} {f : List Done}
    (h : Link (.arm id) d t f) : d = .waitGo id ∧ t = [] ∧ f = [] := by
  generalize ha : Await.arm id = a at h
  cases h with
  | waitArm => cases ha; exact ⟨rfl, rfl, rfl⟩
  | queued hq => rw [hq] at ha; split at ha <;> cases ha
  | _ => cases ha

/-! ### Accounts

Two queues of TICK numbers: the TICKs whose final DONE is not collected, and the
two-phase TICKs whose GO is not sent. -/

def outstanding (s : Pont) : List Nat := if s.trx.pontPending then [s.ticks] else []

def owedGo (s : Pont) : List Nat := if s.trx.tickPhase = .waiting then [s.ticks] else []

end Qosmo.Pont

namespace Qosmo.PontObs

/-- TICKs sent, final DONEs taken. -/
def tickOps : PontObs → List (QueueOp Nat)
  | tickSent id _ => [.accept [id]]
  | tookFinal m _ => [.deliver [m.id]]
  | _ => []

/-- Two-phase TICKs sent, GOs sent. -/
def goOps : PontObs → List (QueueOp Nat)
  | tickSent id true => [.accept [id]]
  | goSent g => [.deliver [g.id]]
  | _ => []

def ticksSent (os : List PontObs) : List Nat := QueueOp.accepted (os.flatMap tickOps)

/-- The TICKs answered by the DONEs taken for final ones, in order. -/
def finalsTaken (os : List PontObs) : List Nat := QueueOp.delivered (os.flatMap tickOps)

def twoPhaseSent (os : List PontObs) : List Nat := QueueOp.accepted (os.flatMap goOps)

def gosSent (os : List PontObs) : List Nat := QueueOp.delivered (os.flatMap goOps)

/-- A DONE is taken for what it is: an answer to the current TICK, and phase A or the
final one according to its flag. -/
def Sound : PontObs → Prop
  | tookPhaseA m current => m.phaseA = true ∧ m.id = current
  | tookFinal m current => m.phaseA = false ∧ m.id = current
  | _ => True

end Qosmo.PontObs

namespace Qosmo.Pont

open List

variable {s : Pont}

/-- The fields the protocol rests on. -/
def core (s : Pont) :=
  (s.trx.pontPending, s.trx.tickPhase, s.trx.phaseARecue, s.trx.goInutile, s.trx.tdmaRunning,
    s.dsp, s.toDsp, s.fromDsp, s.ticks, s.gotA)

/-- `r` is a sound continuation of `s`: still in step, accounts kept, every DONE taken
for what it is. -/
structure Good (s : Pont) (r : Pont × List PontObs) : Prop where
  sync : r.1.Sync
  ticks : QueueOp.Steps s.outstanding (r.2.flatMap PontObs.tickOps) r.1.outstanding
  gos : QueueOp.Steps s.owedGo (r.2.flatMap PontObs.goOps) r.1.owedGo
  sound : ∀ o ∈ r.2, o.Sound

/-- Anything outside the core may change freely. -/
theorem Good.of_core {t : Pont} (h : s.Sync) (hc : t.core = s.core) : Good s (t, []) := by
  simp only [core, Prod.mk.injEq] at hc
  obtain ⟨h1, h2, h3, h4, h5, h6, h7, h8, h9, h10⟩ := hc
  have hawait : t.await = s.await := by simp only [await, h1, h2, h3, h9]
  refine ⟨⟨?_, ?_, ?_, ?_, ?_⟩, ?_, ?_, by simp⟩
  · rw [hawait, h6, h7, h8]; exact h.link
  · rw [h1, h2]; exact h.pending
  · rw [h2, h5]; exact h.running
  · rw [h2, h4]; exact h.go
  · rw [h2, h3, h9, h10]; exact h.gotA
  · simp only [outstanding, h1, h9]; exact .nil _
  · simp only [owedGo, h2, h9]; exact .nil _

theorem Good.trans {r r' : Pont × List PontObs} (h : Good s r) (h' : Good r.1 r') :
    Good s (r'.1, r.2 ++ r'.2) where
  sync := h'.sync
  ticks := by rw [flatMap_append]; exact h.ticks.append h'.ticks
  gos := by rw [flatMap_append]; exact h.gos.append h'.gos
  sound := by
    intro o ho
    rcases List.mem_append.mp ho with ho | ho
    · exact h.sound o ho
    · exact h'.sound o ho

/-! ### QEMU's moves -/

/-- QEMU and the DSP both have nothing to do. -/
structure Free (s : Pont) : Prop where
  pending : s.trx.pontPending = false
  phase : s.trx.tickPhase = .frameStart
  dsp : s.dsp = .idle
  toDsp : s.toDsp = []
  fromDsp : s.fromDsp = []

theorem Sync.free (h : s.Sync) (hp : s.trx.pontPending = false) : s.Free := by
  have hawait : s.await = .nothing := by simp [await, hp]
  obtain ⟨hd, ht, hf⟩ := Link.nothing_inv (hawait ▸ h.link)
  refine ⟨hp, ?_, hd, ht, hf⟩
  cases hph : s.trx.tickPhase with
  | frameStart => rfl
  | waiting => rw [h.pending hph] at hp; cases hp

theorem Free.sync (h : s.Free) : s.Sync := by
  refine ⟨?_, ?_, ?_, ?_, ?_⟩
  · simp only [await, h.pending, h.dsp, h.toDsp, h.fromDsp]; exact .free
  all_goals rw [h.phase]; intro hw; cases hw

/-- Between two frames, the DONE collected is the final one of the last TICK. -/
theorem takeFinal_good (h : s.Sync) (hph : s.trx.tickPhase = .frameStart)
    (hp : s.trx.pontPending) {m : Done} {rest : List Done} (hf : s.fromDsp = m :: rest) :
    Good s ({ s with fromDsp := rest }.takeFinal m, [.tookFinal m s.ticks]) ∧
      ({ s with fromDsp := rest }.takeFinal m).Free := by
  have hawait : s.await = .final s.ticks := by simp [await, hp, hph]
  obtain ⟨hd, ht, hr, hid, hA⟩ := Link.final_inv (hf ▸ hawait ▸ h.link)
  have hfree : ({ s with fromDsp := rest }.takeFinal m).Free := by
    refine ⟨?_, ?_, ?_, ?_, ?_⟩ <;> simp [takeFinal, hph, hd, ht, hr]
  refine ⟨⟨hfree.sync, ?_, ?_, ?_⟩, hfree⟩
  · simpa [outstanding, hp, hfree.pending, PontObs.tickOps, hid] using
      QueueOp.Steps.single (.deliver [s.ticks] [])
  · simpa [owedGo, hph, hfree.phase, PontObs.goOps] using QueueOp.Steps.nil []
  · simpa [PontObs.Sound] using ⟨hA, hid⟩

/-- The announcement sent before a TICK is one of a channel. -/
theorem announce_dcch (s : Pont) : ∀ m ∈ s.announce, ∃ tn genre ss, m = .dcch tn genre ss := by
  intro m hm
  unfold announce at hm
  split at hm
  · exact ⟨_, _, _, by simpa using hm⟩
  · simp at hm

/-- What a TICK leaves behind: itself in the socket, nothing else touched. -/
theorem sendTick_link (h : s.Free) (deux : Bool) :
    Link (if deux then .phaseA (s.ticks + 1) else .final (s.ticks + 1))
      (s.sendTick deux).1.dsp (s.sendTick deux).1.toDsp (s.sendTick deux).1.fromDsp := by
  simp only [sendTick, h.dsp, h.toDsp, h.fromDsp, nil_append]
  exact .queued (by rw [twoPhase_sent]) (announce_dcch s)

/-- A boot TICK: single-phase. -/
theorem sendTick_good (h : s.Free) : Good s (s.sendTick false) := by
  have hph : (s.sendTick false).1.trx.tickPhase = .frameStart := h.phase
  have hawait : (s.sendTick false).1.await = .final (s.ticks + 1) := by
    simp [await, sendTick, h.phase]
  have htwo := tickB_not_twoPhase s.trx.tpu
  refine ⟨⟨?_, ?_, ?_, ?_, ?_⟩, ?_, ?_, ?_⟩
  · rw [hawait]; exact sendTick_link h false
  · rw [hph]; intro h; cases h
  · rw [hph]; intro h; cases h
  · rw [hph]; intro h; cases h
  · rw [hph]; intro h; cases h
  · simpa [outstanding, h.pending, sendTick, PontObs.tickOps] using
      QueueOp.Steps.single (.accept [] [s.ticks + 1])
  · simpa [owedGo, h.phase, sendTick, PontObs.goOps, htwo] using QueueOp.Steps.nil []
  · simp [sendTick, PontObs.Sound]

theorem echange_free (h : s.Free) (deux : Bool) : s.echange deux = s.sendTick deux := by
  rw [echange, if_neg (by simp [h.pending])]

/-- A frame starts: a two-phase TICK goes out. -/
theorem nextFrame_good (h : s.Free) (hrun : s.trx.tdmaRunning) : Good s s.nextFrame := by
  have hfree : s.advanceFn.Free := ⟨h.pending, h.phase, h.dsp, h.toDsp, h.fromDsp⟩
  have heq : s.nextFrame
      = ((s.advanceFn.sendTick true).1.startWait, (s.advanceFn.sendTick true).2) := by
    rw [nextFrame, echange_free hfree]
  have hlink := sendTick_link hfree true
  have htwo := twoPhase_sent s.advanceFn.trx.tpu true
  simp only [if_true] at htwo hlink
  rw [heq]
  refine ⟨⟨hlink, fun _ => rfl, fun _ => hrun, fun _ => rfl, fun _ hrec => by cases hrec⟩,
    ?_, ?_, ?_⟩
  · simpa [outstanding, h.pending, sendTick, startWait, advanceFn, PontObs.tickOps] using
      QueueOp.Steps.single (.accept [] [s.ticks + 1])
  · simpa [owedGo, h.phase, sendTick, startWait, PontObs.goOps, htwo] using
      QueueOp.Steps.single (.accept [] [s.advanceFn.ticks + 1])
  · simp [sendTick, PontObs.Sound]

theorem timeout_core (s : Pont) (hrec : s.trx.phaseARecue) : s.timeout.core = s.core := by
  simp [timeout, core, hrec]

/-- Collecting phase A: the DONE found in the socket is the one of the current TICK. -/
theorem awaitPhaseA_good (h : s.Sync) (hw : s.trx.tickPhase = .waiting) :
    Good s s.awaitPhaseA ∧ s.awaitPhaseA.1.trx.tickPhase = .waiting ∧
      (s.awaitPhaseA.1.trx.phaseARecue = false → s.awaitPhaseA.1 = s ∧ s.fromDsp = []) := by
  have hawait : s.trx.phaseARecue = false → s.await = .phaseA s.ticks := by
    intro hrec
    simp [await, h.pending hw, hw, hrec]
  have ha := awaited_awaitPhaseA s
  generalize s.awaitPhaseA = r at ha ⊢
  cases ha with
  | there hrec => exact ⟨.of_core h rfl, hw, fun hf => by rw [hrec] at hf; cases hf⟩
  | missing _ hf => exact ⟨.of_core h rfl, hw, fun _ => ⟨rfl, hf⟩⟩
  | phaseA m rest hrec hf hA =>
    obtain ⟨hd, ht, hr, hid, -⟩ := Link.phaseA_inv (hf ▸ hawait hrec ▸ h.link)
    generalize htdef : { s with
      fromDsp := rest, trx := { s.trx with phaseARecue := true }, gotA := some m.id } = t
    have hsync : t.Sync := by
      rw [← htdef]
      refine ⟨?_, fun _ => h.pending hw, fun _ => h.running hw, fun _ => h.go hw,
        fun _ _ => by simp [hid]⟩
      simp only [await, h.pending hw, hw, hd, ht, hr, if_true]
      exact .waitArm s.ticks
    have hgood := Good.of_core hsync (rfl : t.startArm.core = t.core)
    refine ⟨⟨hgood.sync, ?_, ?_, ?_⟩, ?_, ?_⟩
    · simpa [outstanding, h.pending hw, ← htdef, startArm, raiseFrame, PontObs.tickOps] using
        QueueOp.Steps.nil [s.ticks]
    · simpa [owedGo, hw, ← htdef, startArm, raiseFrame, PontObs.goOps] using
        QueueOp.Steps.nil [s.ticks]
    · simpa [PontObs.Sound] using ⟨hA, hid⟩
    · rw [← htdef]
      exact hw
    · intro hno
      simp [startArm, raiseFrame, ← htdef] at hno
  | final m rest hrec hf hA =>
    -- in lock-step the DSP has not finished yet
    have hA' := (Link.phaseA_inv (hf ▸ hawait hrec ▸ h.link)).2.2.2.2
    rw [hA] at hA'
    cases hA'

/-- GO goes out once phase A was taken: the DSP is waiting for it. -/
theorem sendGo_good (h : s.Sync) (hw : s.trx.tickPhase = .waiting)
    (hrec : s.trx.phaseARecue) : Good s s.sendGo := by
  have hawait : s.await = .arm s.ticks := by simp [await, h.pending hw, hw, hrec]
  obtain ⟨hd, ht, hf⟩ := Link.arm_inv (hawait ▸ h.link)
  have heq : s.sendGo = ({ s with
      trx := { s.trx with tickPhase := .frameStart }, toDsp := s.toDsp ++ [.go s.trx.fn] },
      [.goSent s.goOf]) := by
    simp [sendGo, h.go hw]
  rw [heq]
  refine ⟨⟨?_, by simp, by simp, by simp, by simp⟩, ?_, ?_, ?_⟩
  · simp only [await, h.pending hw, hd, ht, hf, nil_append, if_true]
    exact .released s.ticks s.trx.fn
  · simpa [outstanding, h.pending hw, PontObs.tickOps] using QueueOp.Steps.nil [s.ticks]
  · simpa [owedGo, hw, goOf, PontObs.goOps] using
      QueueOp.Steps.single (.deliver [s.ticks] [])
  · simp [PontObs.Sound]

/-- A wait for phase A is about to run out: this tick finds no answer of the DSP and
the budget is spent. -/
def PhaseALate (s : Pont) : Prop :=
  s.trx.tickPhase = .waiting ∧ s.trx.phaseARecue = false ∧ s.fromDsp = [] ∧
    attentesMax ≤ s.trx.eoiAttentes + 1

instance (s : Pont) : Decidable s.PhaseALate := by unfold PhaseALate; infer_instance

/-- `tdma_tick` in phase 1, unless the wait for phase A runs out. -/
theorem tickWaiting_good (h : s.Sync) (hw : s.trx.tickPhase = .waiting)
    (hlate : ¬s.PhaseALate) : Good s s.tickWaiting := by
  obtain ⟨hgood, hw', hnone⟩ := awaitPhaseA_good h hw
  have hwaited := waited_tickWaiting s
  generalize s.awaitPhaseA = r at hgood hw' hnone hwaited
  generalize s.tickWaiting = q at hwaited ⊢
  cases hwaited with
  | waits =>
    simpa using hgood.trans (Good.of_core (t := { r.1 with trx := { r.1.trx with
      eoiAttentes := r.1.trx.eoiAttentes + 1 } }) hgood.sync rfl)
  | done hfini =>
    have hrec : r.1.trx.phaseARecue := (Bool.and_eq_true_iff.mp hfini).1
    exact hgood.trans (sendGo_good hgood.sync hw' hrec)
  | late hpat =>
    -- out of patience means phase A is there: otherwise the wait would be late
    have hrec : r.1.trx.phaseARecue := by
      by_contra hno
      rw [Bool.not_eq_true] at hno
      obtain ⟨hself, hf⟩ := hnone hno
      rw [hself] at hno hpat
      refine hlate ⟨hw, hno, hf, ?_⟩
      simp only [patient, fini, hno, Bool.false_and, Bool.not_false, Bool.true_and,
        Bool.and_false, Bool.false_or, decide_eq_false_iff_not] at hpat
      omega
    have ht := Good.of_core hgood.sync (timeout_core r.1 hrec)
    have hc := timeout_core r.1 hrec
    simp only [core, Prod.mk.injEq] at hc
    have hgo := ht.trans (sendGo_good ht.sync (hc.2.1.trans hw') (hc.2.2.1.trans hrec))
    exact hgood.trans hgo

/-- Between two frames an exchange is sound if what follows it is, from a free bridge. -/
theorem Exchanged.good {send : Pont → Pont × List PontObs} {r : Pont × List PontObs}
    (hex : Exchanged s send r) (h : s.Sync) (hph : s.trx.tickPhase = .frameStart)
    (hsend : ∀ t, t.Free → t.trx.tdmaRunning = s.trx.tdmaRunning → Good t (send t)) :
    Good s r := by
  cases hex with
  | free hp => exact hsend s (h.free hp) rfl
  | busy => exact .of_core h rfl
  | answered m rest hp hf =>
    obtain ⟨hgood, hfree⟩ := takeFinal_good h hph hp hf
    exact hgood.trans (hsend _ hfree (by simp [takeFinal]))

/-- Before the TDMA runs, no frame is being waited for. -/
theorem Sync.frameStart (h : s.Sync) (hrun : s.trx.tdmaRunning = false) :
    s.trx.tickPhase = .frameStart := by
  cases hph : s.trx.tickPhase with
  | frameStart => rfl
  | waiting => rw [h.running hph] at hrun; cases hrun

/-! ### Runs -/

/-- No tick gives up on phase A. -/
def InTime (s : Pont) (e : Event) : Prop := e = .tick → ¬s.PhaseALate

instance (s : Pont) (e : Event) : Decidable (InTime s e) := by unfold InTime; infer_instance

/-- **Step lemma.** -/
theorem step_good (h : s.Sync) (e : Event) (ht : InTime s e) : Good s (s.step e) := by
  have hstep := stepped_step s e
  generalize s.step e = r at hstep ⊢
  cases hstep with
  | nothing | frameIrqLower | line | tpu | dcch => exact .of_core h rfl
  | waiting hph => exact tickWaiting_good h hph (ht rfl)
  | frame hrun hph hex =>
    exact hex.good h hph fun _ ht hr => nextFrame_good ht (hr.trans hrun)
  | bootTick hrun hex => exact hex.good h (h.frameStart hrun) fun _ ht _ => sendTick_good ht
  | bootCollect hrun hex =>
    exact hex.good h (h.frameStart hrun) fun _ ht _ => .of_core ht.sync rfl
  | tdmaStart =>
    exact ⟨⟨h.link, h.pending, fun _ => rfl, h.go, h.gotA⟩, .nil _, .nil _, by simp⟩
  | dsp flags =>
    obtain ⟨htrx, hticks, -⟩ := dspStep_frame s flags
    refine ⟨h.dspStep flags, ?_, ?_, by simp⟩
    · simp only [outstanding, htrx, hticks]; exact .nil _
    · simp only [owedGo, htrx, hticks]; exact .nil _
  | armRead offset =>
    simp only [armRead]
    split <;> exact .of_core h rfl
  | armWrite offset value =>
    simp only [armWrite]
    split <;> exact .of_core h rfl

/-- The accounts never lose an entry. -/
theorem ops_lost (os : List PontObs) :
    QueueOp.lost (os.flatMap PontObs.tickOps) = [] ∧
      QueueOp.lost (os.flatMap PontObs.goOps) = [] := by
  induction os with
  | nil => exact ⟨rfl, rfl⟩
  | cons o os ih =>
    simp only [flatMap_cons, QueueOp.lost_append, ih.1, ih.2, append_nil]
    cases o with
    | tickSent id two => cases two <;> exact ⟨rfl, rfl⟩
    | _ => exact ⟨rfl, rfl⟩

/-- Over every run in which no wait for phase A runs out: every DONE is taken for what
it is; the TICKs whose final DONE was taken are all the TICKs sent but the last one,
or all of them, so that two are never outstanding; and the GOs sent are exactly one
for each two-phase TICK, the one being waited for excepted. -/
theorem answers_never_confused (es : List Event) (h : machine.Along InTime init es) :
    let os := machine.trace init es
    let s := machine.final init es
    (∀ o ∈ os, o.Sound) ∧
    PontObs.finalsTaken os ++ s.outstanding = PontObs.ticksSent os ∧
    s.outstanding.length ≤ 1 ∧
    PontObs.gosSent os ++ s.owedGo = PontObs.twoPhaseSent os := by
  intro os s
  have hstep : ∀ t e, t.Sync → InTime t e → (machine.step t e).1.Sync :=
    fun t e ht he => (step_good ht e he).sync
  have hticks := Machine.queue_steps outstanding PontObs.tickOps hstep
    (fun t e ht he => (step_good ht e he).ticks) init_sync h
  have hgos := Machine.queue_steps owedGo PontObs.goOps hstep
    (fun t e ht he => (step_good ht e he).gos) init_sync h
  refine ⟨?_, ?_, ?_, ?_⟩
  · exact Machine.trace_forall hstep (fun t e ht he => (step_good ht e he).sound) init_sync h
  · exact hticks.conservation (ops_lost _).1
  · unfold outstanding; split <;> simp
  · exact hgos.conservation (ops_lost _).2

/-- A whole frame in time. -/
theorem answers_never_confused_one_frame :
    let es := [Event.tdmaStart, .tick, .dsp 0, .dsp 0, .tick]
    machine.Along InTime init es ∧ ∀ o ∈ machine.trace init es, o.Sound :=
  ⟨by decide +kernel, (answers_never_confused _ (by decide +kernel)).1⟩

/-- The DSP is slow to play its ISR, the wait for phase A runs out and GO goes out.
The DONE|PHASE_A that comes later is taken for the final DONE of TICK 1, and TICK 2
is sent while the DSP still holds TICK 1. -/
theorem late_phase_a_taken_for_done :
    let es := [Event.tdmaStart, .tick] ++ List.replicate 256 .tick ++ [.dsp 0, .dsp 0, .tick]
    let s := machine.final init es
    .tookFinal ⟨0x10, 1⟩ 1 ∈ machine.trace init es ∧
      PontObs.ticksSent (machine.trace init es) = [1, 2] ∧ s.dsp = .waitGo 1 := by
  decide +kernel

end Qosmo.Pont
