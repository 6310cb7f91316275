import Qosmo.Pont.Basic

/-!
# Qosmo.Pont.Moves

What each move of the frame loop can do, said once.

Every function of the loop is inverted here: the tests it makes, and the state and the
observations it returns behind each of them. The invariants of the loop are proved from
these cases, not from the functions themselves.
-/

namespace Qosmo.Pont

/-! ### Receiving -/

section

variable (s : Pont) (m : Done)

/-- The API interrupt is raised or not; nothing else happens. -/
theorem raiseApi_cases :
    s.raiseApi m = s ∨ s.raiseApi m = { s with inth := s.inth.setIrq Inth.apiIrq true } := by
  unfold raiseApi
  split
  · exact Or.inr rfl
  · exact Or.inl rfl

@[simp] theorem raiseApi_trx : (s.raiseApi m).trx = s.trx := by
  rcases raiseApi_cases s m with heq | heq <;> rw [heq]
@[simp] theorem raiseApi_ticks : (s.raiseApi m).ticks = s.ticks := by
  rcases raiseApi_cases s m with heq | heq <;> rw [heq]
@[simp] theorem raiseApi_toDsp : (s.raiseApi m).toDsp = s.toDsp := by
  rcases raiseApi_cases s m with heq | heq <;> rw [heq]
@[simp] theorem raiseApi_fromDsp : (s.raiseApi m).fromDsp = s.fromDsp := by
  rcases raiseApi_cases s m with heq | heq <;> rw [heq]
@[simp] theorem raiseApi_dsp : (s.raiseApi m).dsp = s.dsp := by
  rcases raiseApi_cases s m with heq | heq <;> rw [heq]
@[simp] theorem raiseApi_gotA : (s.raiseApi m).gotA = s.gotA := by
  rcases raiseApi_cases s m with heq | heq <;> rw [heq]

end

/-! ### Exchanges that take any DONE for the final one -/

/-- What an exchange can do that goes on with `send` once the DSP is free: the DSP is free already,
has not answered yet, or has answered. -/
inductive Exchanged (s : Pont) (send : Pont → Pont × List PontObs) : Pont × List PontObs → Prop
  | free : s.trx.pontPending = false → Exchanged s send (send s)
  | busy : s.trx.pontPending = true → s.fromDsp = [] → Exchanged s send (s, [])
  | answered (m : Done) (rest : List Done) : s.trx.pontPending = true → s.fromDsp = m :: rest →
      Exchanged s send ((send ({ s with fromDsp := rest }.takeFinal m)).1,
        .tookFinal m s.ticks :: (send ({ s with fromDsp := rest }.takeFinal m)).2)

/-- The code all three exchanges have. -/
theorem exchanged (s : Pont) (send : Pont → Pont × List PontObs) :
    Exchanged s send
      (if s.trx.pontPending then
        match s.fromDsp with
        | m :: rest =>
          let r := send ({ s with fromDsp := rest }.takeFinal m)
          (r.1, .tookFinal m s.ticks :: r.2)
        | [] => (s, [])
      else send s) := by
  cases hp : s.trx.pontPending with
  | false => exact .free hp
  | true =>
    cases hf : s.fromDsp with
    | nil => exact .busy hp hf
    | cons m rest => exact .answered m rest hp hf

/-- What the DONE and `send` keep, the exchange keeps. -/
theorem Exchanged.keeps {s : Pont} {send : Pont → Pont × List PontObs} {r : Pont × List PontObs}
    {I : Pont → Prop} (h : Exchanged s send r) (hs : I s)
    (htake : ∀ m rest, I ({ s with fromDsp := rest }.takeFinal m))
    (hsend : ∀ t, I t → t.trx.pontPending = false → I (send t).1) : I r.1 := by
  cases h with
  | free hp => exact hsend s hs hp
  | busy => exact hs
  | answered m rest => exact hsend _ (htake m rest) (by simp [takeFinal])

/-! ### Phase 1 -/

/-- Phase A was there already or is still missing, or the answer is collected now: phase A
proper, or the final DONE of a DSP that plays single-phase. -/
inductive Awaited (s : Pont) : Pont × List PontObs → Prop
  | there : s.trx.phaseARecue = true → Awaited s (s, [])
  | missing : s.trx.phaseARecue = false → s.fromDsp = [] → Awaited s (s, [])
  | phaseA (m : Done) (rest : List Done) : s.trx.phaseARecue = false → s.fromDsp = m :: rest →
      m.phaseA = true → Awaited s (({ s with
          fromDsp := rest, trx := { s.trx with phaseARecue := true }, gotA := some m.id }
            : Pont).startArm, [.tookPhaseA m s.ticks])
  | final (m : Done) (rest : List Done) : s.trx.phaseARecue = false → s.fromDsp = m :: rest →
      m.phaseA = false → Awaited s (({ ({ s with fromDsp := rest }.takeFinal m) with
          trx := { ({ s with fromDsp := rest }.takeFinal m).trx with
            phaseARecue := true, goInutile := true } } : Pont).startArm,
        [.tookFinal m s.ticks])

theorem awaited_awaitPhaseA (s : Pont) : Awaited s s.awaitPhaseA := by
  unfold awaitPhaseA collectPhaseA
  cases hrec : s.trx.phaseARecue with
  | true => exact .there hrec
  | false =>
    cases hf : s.fromDsp with
    | nil => simpa [hrec] using Awaited.missing hrec hf
    | cons m rest =>
      cases hA : m.phaseA with
      | true => simpa [hA] using Awaited.phaseA m rest hrec hf hA
      | false => simpa [hA, takeFinal] using Awaited.final m rest hrec hf hA

/-- GO goes out, unless a single-phase DSP already finished. -/
inductive Released (s : Pont) : Pont × List PontObs → Prop
  | needless : Released s ({ s with trx := { s.trx with tickPhase := .frameStart } }, [])
  | sent : Released s ({ s with
        trx := { s.trx with tickPhase := .frameStart }, toDsp := s.toDsp ++ [.go s.trx.fn] },
      [.goSent s.goOf])

theorem released_sendGo (s : Pont) : Released s s.sendGo := by
  unfold sendGo
  cases s.trx.goInutile with
  | true => exact .needless
  | false => exact .sent

/-- A tick of phase 1, `a` after its first half, waits on, is done, or gives up. -/
inductive Waited (a : Pont × List PontObs) : Pont × List PontObs → Prop
  | waits : a.1.patient = true →
      Waited a ({ a.1 with trx := { a.1.trx with eoiAttentes := a.1.trx.eoiAttentes + 1 } }, a.2)
  | done : a.1.fini = true → Waited a (a.1.sendGo.1, a.2 ++ a.1.sendGo.2)
  | late : a.1.patient = false → a.1.fini = false →
      Waited a (a.1.timeout.sendGo.1, a.2 ++ a.1.timeout.sendGo.2)

theorem waited_tickWaiting (s : Pont) : Waited s.awaitPhaseA s.tickWaiting := by
  unfold tickWaiting
  generalize s.awaitPhaseA = a
  cases hp : a.1.patient with
  | true => simpa [hp] using Waited.waits hp
  | false =>
    cases hf : a.1.fini with
    | true => simpa [hp, hf] using Waited.done hf
    | false => simpa [hp, hf] using Waited.late hp hf

/-! ### A step -/

/-- What a step can do, by its event. -/
inductive Stepped (s : Pont) : Event → Pont × List PontObs → Prop
  | nothing (e : Event) : Stepped s e (s, [])
  | waiting : s.trx.tickPhase = .waiting → Stepped s .tick s.tickWaiting
  | frame {r : Pont × List PontObs} : s.trx.tdmaRunning = true → s.trx.tickPhase = .frameStart →
      Exchanged s nextFrame r → Stepped s .tick r
  | bootTick {r : Pont × List PontObs} : s.trx.tdmaRunning = false →
      Exchanged s (·.sendTick false) r → Stepped s .bootTick r
  | bootCollect {r : Pont × List PontObs} : s.trx.tdmaRunning = false → Exchanged s (·, []) r →
      Stepped s .bootCollect r
  | tdmaStart : Stepped s .tdmaStart
      ({ s with trx := { s.trx with tdmaRunning := true, fn := 0 } }, [])
  | dsp (flags : BitVec 32) : Stepped s (.dsp flags) (s.dspStep flags, [])
  | frameIrqLower : Stepped s .frameIrqLower
      ({ s with inth := s.inth.setIrq Inth.tpuFrame false }, [])
  | line (irq : Irq) (level : Bool) : irq ≠ Inth.tpuFrame →
      Stepped s (.line irq level) ({ s with inth := s.inth.setIrq irq level }, [])
  | armRead (offset : Nat) : Stepped s (.armRead offset) (s.armRead offset, [])
  | armWrite (offset : Nat) (value : Word) :
      Stepped s (.armWrite offset value) (s.armWrite offset value, [])
  | tpu (regs : TpuRegs) : Stepped s (.tpu regs) ({ s with trx := { s.trx with tpu := regs } }, [])
  | dcch (tn genre ss : BitVec 32) : Stepped s (.dcch tn genre ss)
      ({ s with trx := { s.trx with dcch := some (tn, genre, ss) } }, [])

theorem stepped_step (s : Pont) (e : Event) : Stepped s e (s.step e) := by
  cases e with
  | tick =>
    simp only [step, tdmaTick]
    cases hrun : s.trx.tdmaRunning with
    | false => exact .nothing _
    | true =>
      cases hph : s.trx.tickPhase with
      | waiting => exact .waiting hph
      | frameStart => exact .frame hrun hph (exchanged s nextFrame)
  | bootTick =>
    simp only [step]
    cases hrun : s.trx.tdmaRunning with
    | true => exact .nothing _
    | false => exact .bootTick hrun (exchanged s (·.sendTick false))
  | bootCollect =>
    simp only [step]
    cases hrun : s.trx.tdmaRunning with
    | true => exact .nothing _
    | false => exact .bootCollect hrun (exchanged s (·, []))
  | tdmaStart =>
    simp only [step]
    split
    · exact .nothing _
    · exact .tdmaStart
  | line irq level =>
    simp only [step]
    split
    · exact .nothing _
    · exact .line irq level ‹_›
  | dsp flags => exact .dsp flags
  | frameIrqLower => exact .frameIrqLower
  | armRead offset => exact .armRead offset
  | armWrite offset value => exact .armWrite offset value
  | tpu regs => exact .tpu regs
  | dcch tn genre ss => exact .dcch tn genre ss

/-- The DSP moves between the two ends of the socket. -/
theorem dspStep_eq (s : Pont) (flags : BitVec 32) :
    ∃ toDsp fromDsp dsp, s.dspStep flags =
      { s with toDsp := toDsp, fromDsp := fromDsp, dsp := dsp } := by
  unfold dspStep
  split
  · split <;> exact ⟨_, _, _, rfl⟩
  · exact ⟨_, _, _, rfl⟩
  · split <;> exact ⟨_, _, _, rfl⟩
  · exact ⟨_, _, _, rfl⟩

end Qosmo.Pont
