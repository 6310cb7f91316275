import Qosmo.Pont.Moves

/-!
# Qosmo.Pont.Arming

The DSP frame interrupt on the bridge, in every mode.

The firmware arms the interrupt of the DSP by a write of `TPU_CTRL` with DSP_EN set; the next TICK
that is sent announces it and consumes the bit. Here the TRX runs in all its modes (lock-step or
at the pace of the wall clock, one phase or two, boot timer, polled boot), and everything around it
is up to the environment: what `pont_recv` gives, how far the ARM is with its interrupts, the
wall clock. The sends succeed as long as the socket is connected.

`tick_carries_iff`: a TICK carries the bit exactly when the firmware's last write to `TPU_CTRL`
since the last TICK that carried it had DSP_EN set, and the interrupt is enabled.

The registers of the TPU that no modelled function reads are left out, as are the UARTs, which
`tdma_tick` also serves.
-/

namespace Qosmo

open BitVec

structure Gates where
  /-- `CALYPSO_PONT_LOCKSTEP` -/
  lockstep : Bool
  /-- `CALYPSO_PONT_ARM_FIRST`, which counts in lock-step only -/
  armFirst : Bool
  /-- `CALYPSO_PONT_ARM_LOCK` -/
  armLock : Bool
  /-- `PONT_ATTENTES_MAX`, from the retry quantum -/
  attentesMax : Nat
  deriving Repr, DecidableEq

namespace Gates

/-- `arm_first`. -/
def twoPhases (g : Gates) : Bool := g.lockstep && g.armFirst

end Gates

/-- The TRX and its end of the socket. -/
structure Bridge where
  trx : Trx
  /-- `pont_fd` is open -/
  connected : Bool
  deriving Repr, DecidableEq

/-- What `pont_recv` gives. -/
inductive Recv where
  /-- no message in time, or one that is no DONE -/
  | nothing
  | done (m : Done)
  /-- the connection breaks -/
  | lost
  deriving Repr, DecidableEq

/-- What goes out to the DSP. -/
inductive Sent where
  | tick (fn : Nat) (b : BitVec 32) (offset : Word)
  | go (fn : Nat)
  | dcch (tn genre ss : BitVec 32)
  deriving Repr, DecidableEq

/-- A message of `Pont`, without the number of its TICK. -/
def Sent.of : ToDsp → Sent
  | .tick _ fn b offset => .tick fn b offset
  | .go fn => .go fn
  | .dcch tn genre ss => .dcch tn genre ss

/-- A TICK with the bit of the DSP frame interrupt, `CALYPSO_PONT_TICK_IRQ_TRAME`. -/
def Sent.carries : Sent → Bool
  | .tick _ b _ => bitSet b 16
  | _ => false

/-- What a frame tick finds around it. -/
structure Around where
  recv : Recv
  /-- `calypso_inth_frame_eoi` -/
  frameEoi : Nat
  /-- `calypso_inth_irq_masked` of the frame interrupt -/
  masked : Bool
  /-- `arm_relance_dsp` -/
  relance : Bool
  /-- `g_wall_fn` -/
  wallFn : Nat
  deriving Repr, DecidableEq

namespace Bridge

def init : Bridge := ⟨Pont.init.trx, true⟩

/-! ### Sending and receiving -/

/-- `pont_recv`. A closed socket gives nothing. -/
def recv (s : Bridge) : Recv → Bridge × Option Done
  | .nothing => (s, none)
  | .done m => (s, if s.connected then some m else none)
  | .lost => ({ s with connected := false }, none)

/-- The final DONE of a TICK is there. -/
def collected (s : Bridge) : Bridge := { s with trx := { s.trx with pontPending := false } }

def announce (t : Trx) : List Sent :=
  match t.dcch with
  | some (tn, genre, ss) => [.dcch tn genre ss]
  | none => []

/-- The sending half of `pont_echange`. -/
def sendTick (s : Bridge) (deux : Bool) : Bridge × List Sent :=
  let r := Pont.tickB s.trx.tpu
  let b := if deux then r.2 ||| ToDsp.deuxPhases else r.2
  ({ s with trx := { s.trx with tpu := r.1, dcch := none, pontPending := true } },
    announce s.trx ++ [.tick s.trx.fn b r.1.offset])

def echange (s : Bridge) (deux : Bool) (r : Recv) : Bridge × List Sent :=
  if s.connected then
    if s.trx.pontPending then
      match s.recv r with
      | (s, some _) => s.collected.sendTick deux
      | (s, none) => (s, [])
    else s.sendTick deux
  else (s, [])

def bootPas (s : Bridge) (r : Recv) : Bridge × List Sent :=
  if s.connected then
    let x := if s.trx.pontPending then (s, []) else s.echange false .nothing
    if x.1.trx.pontPending then
      match x.1.recv r with
      | (s, some _) => (s.collected, x.2)
      | (s, none) => (s, x.2)
    else x
  else (s, [])

/-! ### `tdma_tick` -/

/-- Phase 1: collect DONE|PHASE_A, or the final DONE of a DSP that plays single-phase. -/
def awaitPhaseA (s : Bridge) (env : Around) : Bridge :=
  if s.trx.phaseARecue then s
  else
    match s.recv env.recv with
    | (s, some m) =>
      let t := if m.phaseA then { s.trx with phaseARecue := true }
        else { s.trx with pontPending := false, phaseARecue := true, goInutile := true }
      let base := if t.eoiCible < env.frameEoi then env.frameEoi else t.eoiCible
      { s with trx := { t with eoiCible := base + 1 } }
    | (s, none) => s

def fini (t : Trx) (env : Around) : Bool :=
  t.phaseARecue && (decide (t.eoiCible ≤ env.frameEoi) || env.masked)

/-- How often the loop will have waited, if it waits for another tick. -/
def waits (g : Gates) (t : Trx) (env : Around) : Option Nat :=
  let n := t.eoiAttentes + 1
  if fini t env then none
  else if t.phaseARecue ∧ g.attentesMax ≤ n ∧ n < g.attentesMax * 32 then some n
  else if n < g.attentesMax then some n
  else if g.armLock ∧ !env.relance ∧ n < g.attentesMax * 64 then some (n + 1)
  else none

/-- `tdma_tick` with `tick_phase == 1`. -/
def tickWaiting (g : Gates) (s : Bridge) (env : Around) : Bridge × List Sent :=
  let s := s.awaitPhaseA env
  match waits g s.trx env with
  | some n => ({ s with trx := { s.trx with eoiAttentes := n } }, [])
  | none =>
    let t := if fini s.trx env then s.trx
      else { s.trx with
        eoiAttentes := s.trx.eoiAttentes + 1, eoiCible := env.frameEoi
        eoiTimeouts := s.trx.eoiTimeouts + 1 }
    ({ s with trx := { t with tickPhase := .frameStart } },
      if s.connected && !t.goInutile then [.go t.fn] else [])

/-- The frame number, at the DSP's pace or the wall clock's. -/
def advanceFn (g : Gates) (s : Bridge) (env : Around) : Bridge :=
  let fn := if s.connected && g.lockstep then s.trx.fn + 1
    else if env.wallFn ≠ 0 then env.wallFn else s.trx.fn + 1
  { s with trx := { s.trx with fn := fn % Pont.hyperframe } }

/-- The frame proper. Without a bridge, DSP_EN is taken as served. -/
def frame (g : Gates) (s : Bridge) (env : Around) : Bridge × List Sent :=
  let r := (s.advanceFn g env).echange g.twoPhases env.recv
  let t := r.1.trx
  if r.1.connected then
    if g.twoPhases && t.pontPending then
      ({ r.1 with trx := { t with
          eoiAttentes := 0, phaseARecue := false, goInutile := false, tickPhase := .waiting } }, r.2)
    else r
  else ({ r.1 with trx := { t with tpu := { t.tpu with ctrl := t.tpu.ctrl &&& ~~~0x0010#16 } } }, r.2)

/-- `tdma_tick` with `tick_phase == 0`. In lock-step the frame starts once the DONE of the previous
one is collected. -/
def tickFrameStart (g : Gates) (s : Bridge) (env : Around) : Bridge × List Sent :=
  if s.connected && s.trx.pontPending && g.lockstep then
    match s.recv env.recv with
    | (s, some _) => s.collected.frame g env
    | (s, none) => (s, [])
  else s.frame g env

def tdmaTick (g : Gates) (s : Bridge) (env : Around) : Bridge × List Sent :=
  match s.trx.tickPhase with
  | .waiting => s.tickWaiting g env
  | .frameStart => s.tickFrameStart g env

/-! ### The firmware -/

def tdmaStart (s : Bridge) : Bridge := { s with trx := { s.trx with tdmaRunning := true, fn := 0 } }

def store (t : TpuRegs) (off : Nat) (v : Word) : TpuRegs :=
  match off / 2 with
  | 0 => { t with ctrl := v }
  | 1 => { t with intCtrl := v }
  | 6 => { t with offset := v }
  | _ => t

/-- `tpu_write`. TPU_CTRL with EN set runs the scenario, which leaves the control registers alone;
and it starts the TDMA, as does TPU_INT_CTRL with the MCU's frame interrupt enabled. -/
def tpuWrite (s : Bridge) (off : Nat) (val : BitVec 32) : Bridge :=
  let stored := { s with trx := { s.trx with tpu := store s.trx.tpu off (val.setWidth 16) } }
  let t := stored.trx
  if off = 0x00 ∧ bitSet val 2 then
    let ran := { stored with trx := { t with
      tpu := { t.tpu with ctrl := t.tpu.ctrl &&& ~~~0x0104#16 } } }
    if !t.tdmaRunning && !bitSet t.tpu.intCtrl 0 then ran.tdmaStart else ran
  else if off = 0x02 ∧ !bitSet val 0 ∧ !t.tdmaRunning then stored.tdmaStart
  else if off = 0x20 then
    { stored with trx := { t with tpu := { t.tpu with dspPage := val.setWidth 8 &&& 1 } } }
  else stored

/-! ### The whole as a machine -/

inductive Event where
  /-- the firmware writes to the TPU -/
  | tpuWrite (off : Nat) (val : BitVec 32)
  /-- the sequencer moves `TPU_OFFSET` -/
  | offset (w : Word)
  /-- the firmware writes `d_dsp_page` -/
  | dspPage (v : Word)
  /-- a dedicated channel is to be announced -/
  | dcch (tn genre ss : BitVec 32)
  /-- the boot timer fires -/
  | bootTick (r : Recv)
  /-- the firmware polls the bootloader's status -/
  | bootPas (r : Recv)
  /-- the TDMA timer fires -/
  | tick (env : Around)
  /-- `calypso_trx_force_tick` -/
  | force (fn : Nat) (env : Around)
  deriving Repr, DecidableEq

/-- One step of the bridge. The TDMA timer runs once the firmware started it, the boot exchanges
only before. -/
def step (g : Gates) (s : Bridge) : Event → Bridge × List Sent
  | .tpuWrite off val => (s.tpuWrite off val, [])
  | .offset w => ({ s with trx := { s.trx with tpu := { s.trx.tpu with offset := w } } }, [])
  | .dspPage v =>
    ({ s with trx := { s.trx with tpu := { s.trx.tpu with dspPage := v.setWidth 8 &&& 1 } } }, [])
  | .dcch tn genre ss => ({ s with trx := { s.trx with dcch := some (tn, genre, ss) } }, [])
  | .bootTick r => if s.trx.tdmaRunning then (s, []) else s.echange false r
  | .bootPas r => if s.trx.tdmaRunning then (s, []) else s.bootPas r
  | .tick env => if s.trx.tdmaRunning then s.tdmaTick g env else (s, [])
  | .force fn env => ({ s with trx := { s.trx with fn := fn } } : Bridge).tdmaTick g env

/-! ### In lock-step

With the gates of the frame loop, `tdma_tick` is the one of `Pont.tdmaTick`, which also has the DSP
and the interrupt controller. -/

/-- The gates of the frame loop. -/
def lockStep : Gates := ⟨true, true, false, Pont.attentesMax⟩

/-- What a tick of the frame loop finds around it. -/
def around (p : Pont) : Around where
  recv := match p.fromDsp with
    | m :: _ => .done m
    | [] => .nothing
  frameEoi := p.inth.frameEoi
  masked := p.inth.irqMasked Inth.tpuFrame
  relance := false
  wallFn := 0

/-- The TRX is in the same state, and the same messages went out. -/
structure Agrees (p p' : Pont) (r : Bridge × List Sent) : Prop where
  trx : r.1 = ⟨p'.trx, true⟩
  sent : p'.toDsp.map Sent.of = p.toDsp.map Sent.of ++ r.2

theorem frame_agrees {p : Pont} (h : p.trx.pontPending = false) (env : Around) :
    Agrees p p.nextFrame.1 (frame lockStep ⟨p.trx, true⟩ env) := by
  have hsent : p.advanceFn.announce.map Sent.of = announce p.advanceFn.trx := by
    unfold Pont.announce announce
    cases p.advanceFn.trx.dcch <;> rfl
  unfold Pont.nextFrame
  constructor <;> simp_all [frame, lockStep, Gates.twoPhases, advanceFn, echange, sendTick,
    Pont.echange, Pont.sendTick, Pont.advanceFn, Pont.startWait, Sent.of]

theorem tickFrameStart_agrees (p : Pont) :
    Agrees p p.tickFrameStart.1 (tickFrameStart lockStep ⟨p.trx, true⟩ (around p)) := by
  unfold tickFrameStart Pont.tickFrameStart
  cases hp : p.trx.pontPending with
  | false => simpa using frame_agrees hp (around p)
  | true =>
    cases hf : p.fromDsp with
    | nil => constructor <;> simp [hf, recv, around, lockStep]
    | cons m rest =>
      have hframe := frame_agrees (p := { p with fromDsp := rest }.takeFinal m)
        (by simp [Pont.takeFinal]) (around p)
      constructor
      · simpa [hf, recv, around, lockStep, Pont.takeFinal, collected] using hframe.trx
      · simpa [hf, recv, around, lockStep, Pont.takeFinal, collected] using hframe.sent

/-- Raising an interrupt leaves the counts and the masks alone. -/
theorem setIrq_masked (i : Inth) (irq : Irq) (level : Bool) :
    (i.setIrq irq level).irqMasked Inth.tpuFrame = i.irqMasked Inth.tpuFrame := by
  unfold Inth.setIrq Inth.irqMasked
  rw [Inth.update_mask]
  split
  · rfl
  · split <;> rfl

theorem takeFinal_inth (p : Pont) (m : Done) :
    (p.takeFinal m).inth.frameEoi = p.inth.frameEoi ∧
      (p.takeFinal m).inth.irqMasked Inth.tpuFrame = p.inth.irqMasked Inth.tpuFrame := by
  unfold Pont.takeFinal Pont.raiseApi
  split
  · exact ⟨Inth.setIrq_frameEoi _ _ _, setIrq_masked _ _ _⟩
  · exact ⟨rfl, rfl⟩

/-- Taking phase A leaves what the tick looks at around it. -/
theorem awaitPhaseA_agrees (p : Pont) :
    awaitPhaseA ⟨p.trx, true⟩ (around p) = ⟨p.awaitPhaseA.1.trx, true⟩ ∧
    p.awaitPhaseA.1.toDsp = p.toDsp ∧
    p.awaitPhaseA.1.inth.frameEoi = p.inth.frameEoi ∧
    p.awaitPhaseA.1.inth.irqMasked Inth.tpuFrame = p.inth.irqMasked Inth.tpuFrame := by
  unfold awaitPhaseA Pont.awaitPhaseA Pont.collectPhaseA
  cases hp : p.trx.phaseARecue with
  | true => simp
  | false =>
    cases hf : p.fromDsp with
    | nil => simp [hp, hf, recv, around]
    | cons m rest =>
      have htake := takeFinal_inth { p with fromDsp := rest } m
      cases hA : m.phaseA <;>
        simp_all [recv, around, Pont.startArm, Pont.raiseFrame, Pont.takeFinal, setIrq_masked]

theorem waits_eq {q : Pont} {env : Around} (hfini : fini q.trx env = q.fini) :
    waits lockStep q.trx env = if q.patient then some (q.trx.eoiAttentes + 1) else none := by
  simp only [waits, Pont.patient, hfini, lockStep]
  grind

theorem timeout_trx (q : Pont) : q.timeout.trx = { q.trx with
    eoiAttentes := q.trx.eoiAttentes + 1, eoiCible := q.inth.frameEoi
    eoiTimeouts := q.trx.eoiTimeouts + 1 } := by
  unfold Pont.timeout
  cases hrec : q.trx.phaseARecue with
  | true => simp [hrec]
  | false => simp [hrec, Pont.raiseFrame]

theorem tickWaiting_agrees (p : Pont) :
    Agrees p p.tickWaiting.1 (tickWaiting lockStep ⟨p.trx, true⟩ (around p)) := by
  obtain ⟨hawait, hsent, heoi, hmasked⟩ := awaitPhaseA_agrees p
  unfold tickWaiting Pont.tickWaiting
  rw [hawait]
  dsimp only
  generalize p.awaitPhaseA.1 = q at *
  have hfini : fini q.trx (around p) = q.fini := by
    rw [fini, Pont.fini, heoi, hmasked]
    rfl
  rw [waits_eq hfini, hfini]
  cases q.patient with
  | true => exact ⟨rfl, by simp [hsent]⟩
  | false =>
    have hgo : ∀ r : Pont, r.toDsp = p.toDsp → Agrees p r.sendGo.1
        (⟨{ r.trx with tickPhase := .frameStart }, true⟩,
          if true && !r.trx.goInutile then [.go r.trx.fn] else []) := by
      intro r hr
      unfold Pont.sendGo
      cases hg : r.trx.goInutile <;> constructor <;> simp [hr, Sent.of]
    cases q.fini with
    | true => exact hgo q hsent
    | false =>
      have htimeout := hgo q.timeout (by unfold Pont.timeout; split <;> exact hsent)
      rw [timeout_trx, heoi] at htimeout
      exact htimeout

/-- **In lock-step.** Where the frame loop of `Pont` ticks, the bridge with the gates of lock-step
does the same: the TRX ends in the same state, and the same messages go out. -/
theorem tdmaTick_agrees (p : Pont) :
    Agrees p p.tdmaTick.1 (tdmaTick lockStep ⟨p.trx, true⟩ (around p)) := by
  unfold tdmaTick Pont.tdmaTick
  cases p.trx.tickPhase with
  | waiting => exact tickWaiting_agrees p
  | frameStart => exact tickFrameStart_agrees p

/-! ### What a step does to the frame interrupt -/

def dspEn (s : Bridge) : Bool := bitSet s.trx.tpu.ctrl 4

/-- The DSP's frame interrupt is disabled (ICTRL_DSP_FRAME, active low). -/
def dspOff (s : Bridge) : Bool := bitSet s.trx.tpu.intCtrl 2

/-- If the socket is open afterwards, it was before, and the two bits are what they were. -/
def Same (s s' : Bridge) : Prop :=
  s'.connected = true → s.connected = true ∧ s'.dspEn = s.dspEn ∧ s'.dspOff = s.dspOff

def Tickless (os : List Sent) : Prop := ∀ fn b w, Sent.tick fn b w ∉ os

/-- What a step may do: send no TICK and leave the two bits alone; or send one TICK, with the bit
if the interrupt is armed and enabled, and disarm it then. -/
inductive Effect (s : Bridge) : Bridge × List Sent → Prop where
  | quiet {s' : Bridge} {os : List Sent} : Same s s' → Tickless os → Effect s (s', os)
  | ticked {s' : Bridge} {os : List Sent} {fn : Nat} {b : BitVec 32} {w : Word} :
      s.connected = true → bitSet b 16 = (s.dspEn && !s.dspOff) →
      (s'.connected = true → s'.dspEn = (s.dspEn && s.dspOff) ∧ s'.dspOff = s.dspOff) →
      Tickless os → Effect s (s', os ++ [.tick fn b w])

variable {s s' s'' : Bridge} {g : Gates} {env : Around} {os : List Sent}

theorem Same.refl (s : Bridge) : Same s s := fun h => ⟨h, rfl, rfl⟩

theorem Same.trans (h : Same s s') (h' : Same s' s'') : Same s s'' := by
  intro hc
  obtain ⟨hc', hen', hoff'⟩ := h' hc
  obtain ⟨hc'', hen, hoff⟩ := h hc'
  exact ⟨hc'', hen'.trans hen, hoff'.trans hoff⟩

theorem tickless_nil : Tickless [] := fun _ _ _ => List.not_mem_nil

/-- What comes before the effect and leaves the bits alone does not count. -/
theorem Effect.after {r : Bridge × List Sent} (h : Effect s' r) (hsame : Same s s') :
    Effect s r := by
  cases h with
  | quiet hkeep hno => exact .quiet (hsame.trans hkeep) hno
  | ticked hc hb hbits hno =>
    obtain ⟨hc', hen, hoff⟩ := hsame hc
    rw [hen, hoff] at hb hbits
    exact .ticked hc' hb hbits hno

/-- Nor does what comes after it. -/
theorem Effect.before (h : Effect s (s', os)) (hsame : Same s' s'') : Effect s (s'', os) := by
  cases h with
  | quiet hkeep hno => exact .quiet (hkeep.trans hsame) hno
  | ticked hc hb hbits hno =>
    refine .ticked hc hb (fun h => ?_) hno
    obtain ⟨hc', hen, hoff⟩ := hsame h
    rw [hen, hoff]
    exact hbits hc'

/-! ### Each function -/

theorem same_recv (s : Bridge) (r : Recv) : Same s (s.recv r).1 := by
  cases r with
  | nothing | done m => exact Same.refl s
  | lost => exact fun h => Bool.noConfusion h

/-- A DONE comes over an open socket only. -/
theorem recv_some {r : Recv} {m : Done} (h : s.recv r = (s', some m)) :
    s' = s ∧ s.connected := by
  cases r with
  | nothing | lost => cases h
  | done m' =>
    obtain ⟨rfl, hm⟩ := Prod.mk.inj h
    exact ⟨rfl, (Option.ite_none_right_eq_some.mp hm).1⟩

theorem same_collected (s : Bridge) : Same s s.collected := fun h => ⟨h, rfl, rfl⟩

theorem tickless_announce (t : Trx) : Tickless (announce t) := by
  intro fn b w hmem
  unfold announce at hmem
  split at hmem <;> simp at hmem

theorem tickB_bits (t : TpuRegs) :
    bitSet (Pont.tickB t).2 16 = (bitSet t.ctrl 4 && !bitSet t.intCtrl 2) ∧
    bitSet (Pont.tickB t).1.ctrl 4 = (bitSet t.ctrl 4 && bitSet t.intCtrl 2) ∧
    (Pont.tickB t).1.intCtrl = t.intCtrl := by
  have hpage : bitSet (t.dspPage.setWidth 32) 16 = false := by
    rw [bitSet, getLsbD_setWidth, getLsbD_of_ge _ _ (by decide), Bool.and_false]
  unfold Pont.tickB
  dsimp only
  by_cases harmed : (bitSet t.ctrl 4 && !bitSet t.intCtrl 2)
  · rw [if_pos harmed]
    obtain ⟨hen, hon⟩ := Bool.and_eq_true_iff.mp harmed
    replace hon : bitSet t.intCtrl 2 = false := by simpa using hon
    rw [hen, hon]
    refine ⟨?_, ?_, rfl⟩
    · rw [bitSet, getLsbD_or, ← bitSet, hpage]
      rfl
    · rw [bitSet, getLsbD_and]
      simp
  · rw [if_neg harmed, hpage]
    refine ⟨(Bool.not_eq_true _ ▸ harmed).symm, ?_, rfl⟩
    show bitSet t.ctrl 4 = _
    cases hen : bitSet t.ctrl 4 <;> cases hoff : bitSet t.intCtrl 2 <;> simp_all

theorem effect_sendTick (hc : s.connected) (deux : Bool) : Effect s (s.sendTick deux) := by
  obtain ⟨hb, hen, hoff⟩ := tickB_bits s.trx.tpu
  have hdeux : bitSet (if deux then (Pont.tickB s.trx.tpu).2 ||| ToDsp.deuxPhases
      else (Pont.tickB s.trx.tpu).2) 16 = bitSet (Pont.tickB s.trx.tpu).2 16 := by
    cases deux with
    | true =>
      rw [if_pos rfl, bitSet, getLsbD_or]
      simp [bitSet, ToDsp.deuxPhases]
    | false => rw [if_neg Bool.false_ne_true]
  refine .ticked hc (hdeux.trans hb) (fun _ => ⟨hen, ?_⟩) (tickless_announce s.trx)
  exact congrArg (bitSet · 2) hoff

theorem effect_echange (s : Bridge) (deux : Bool) (r : Recv) : Effect s (s.echange deux r) := by
  unfold echange
  by_cases hc : s.connected
  · rw [if_pos hc]
    split
    · split
      · rename_i s' m hr
        obtain ⟨rfl, -⟩ := recv_some hr
        exact (effect_sendTick hc deux).after (same_collected s')
      · rename_i s' hr
        have hsame := same_recv s r
        rw [hr] at hsame
        exact .quiet hsame tickless_nil
    · exact effect_sendTick hc deux
  · rw [if_neg hc]
    exact .quiet (Same.refl s) tickless_nil

theorem effect_bootPas (s : Bridge) (r : Recv) : Effect s (s.bootPas r) := by
  have hsent : Effect s (if s.trx.pontPending then (s, []) else s.echange false .nothing) := by
    split
    · exact .quiet (Same.refl s) tickless_nil
    · exact effect_echange s false .nothing
  unfold bootPas
  split
  · dsimp only
    generalize (if s.trx.pontPending then (s, []) else s.echange false .nothing) = x at hsent
    obtain ⟨s', os⟩ := x
    dsimp only
    split
    · have hsame := same_recv s' r
      split <;> rename_i hr <;> rw [hr] at hsame
      · exact hsent.before (hsame.trans (same_collected _))
      · exact hsent.before hsame
    · exact hsent
  · exact .quiet (Same.refl s) tickless_nil

theorem same_awaitPhaseA (s : Bridge) (env : Around) : Same s (s.awaitPhaseA env) := by
  have hsame := same_recv s env.recv
  unfold awaitPhaseA
  split
  · exact Same.refl s
  · split <;> rename_i hr <;> rw [hr] at hsame
    · -- of the two ways to take the DONE, neither touches the registers
      refine hsame.trans fun h => ⟨h, ?_, ?_⟩ <;> dsimp only [dspEn, dspOff] <;> split <;> rfl
    · exact hsame

section

variable (g : Gates) (s : Bridge) (env : Around)

theorem effect_tickWaiting : Effect s (s.tickWaiting g env) := by
  have hsame := same_awaitPhaseA s env
  unfold tickWaiting
  dsimp only
  generalize s.awaitPhaseA env = s' at hsame
  split
  · exact .quiet (hsame.trans fun h => ⟨h, rfl, rfl⟩) tickless_nil
  · refine .quiet (hsame.trans fun h => ⟨h, ?_, ?_⟩) ?_
    · dsimp only [dspEn]
      split <;> rfl
    · dsimp only [dspOff]
      split <;> rfl
    · intro fn b w
      split <;> split <;> simp

theorem effect_frame : Effect s (s.frame g env) := by
  have heff := (effect_echange (s.advanceFn g env) g.twoPhases env.recv).after
    (s := s) (fun h => ⟨h, rfl, rfl⟩)
  unfold frame
  dsimp only
  generalize (s.advanceFn g env).echange g.twoPhases env.recv = r at heff
  obtain ⟨s', os⟩ := r
  dsimp only
  split
  · split
    · exact heff.before fun h => ⟨h, rfl, rfl⟩
    · exact heff
  · rename_i hclosed
    exact heff.before fun h => absurd h hclosed

theorem effect_tdmaTick : Effect s (s.tdmaTick g env) := by
  unfold tdmaTick
  split
  · exact effect_tickWaiting g s env
  · unfold tickFrameStart
    have hsame := same_recv s env.recv
    split
    · split <;> rename_i hr <;> rw [hr] at hsame
      · exact (effect_frame g _ env).after (hsame.trans (same_collected _))
      · exact .quiet hsame tickless_nil
    · exact effect_frame g s env

end

/-- A write to the TPU stores the two bits where it goes to their registers. -/
theorem tpuWrite_bits (s : Bridge) (off : Nat) (val : BitVec 32) :
    (s.tpuWrite off val).connected = s.connected ∧
    (s.tpuWrite off val).dspEn = (if off / 2 = 0 then bitSet val 4 else s.dspEn) ∧
    (s.tpuWrite off val).dspOff = (if off / 2 = 1 then bitSet val 2 else s.dspOff) := by
  have hstore : bitSet (store s.trx.tpu off (val.setWidth 16)).ctrl 4 =
        (if off / 2 = 0 then bitSet val 4 else s.dspEn) ∧
      bitSet (store s.trx.tpu off (val.setWidth 16)).intCtrl 2 =
        (if off / 2 = 1 then bitSet val 2 else s.dspOff) := by
    unfold store
    split
    · rename_i h
      rw [h]
      exact ⟨by simp [bitSet], rfl⟩
    · rename_i h
      rw [h]
      exact ⟨rfl, by simp [bitSet]⟩
    · rename_i h
      rw [h]
      exact ⟨rfl, rfl⟩
    · rename_i h0 h1 _
      rw [if_neg h0, if_neg h1]
      exact ⟨rfl, rfl⟩
  rw [← hstore.1, ← hstore.2]
  unfold tpuWrite
  dsimp only
  split
  · -- EN and IDLE are cleared, DSP_EN is not
    have hkeep : ∀ c : Word, bitSet (c &&& ~~~0x0104#16) 4 = bitSet c 4 := by
      intro c
      simp [bitSet]
    split <;> exact ⟨rfl, hkeep _, rfl⟩
  · split
    · exact ⟨rfl, rfl, rfl⟩
    · split <;> exact ⟨rfl, rfl, rfl⟩

/-! ### Following the armings -/

/-- The bridge, and what the firmware wants of the frame interrupt. -/
structure Armed where
  bridge : Bridge
  /-- the last write to TPU_CTRL since the last TICK with the bit has DSP_EN set -/
  armed : Bool
  /-- the last write to TPU_INT_CTRL enables the DSP's frame interrupt, or there was none -/
  enabled : Bool
  /-- how often TPU_CTRL was written with DSP_EN set -/
  armings : Nat
  /-- how many TICKs had the bit -/
  announced : Nat

def Armed.init : Armed := ⟨Bridge.init, false, true, 0, 0⟩

def Event.arms : Event → Bool
  | .tpuWrite off val => off / 2 == 0 && bitSet val 4
  | _ => false

/-- Is the interrupt armed after the event, of which `n` TICKs with the bit came? -/
def nextArmed (w : Armed) (n : Nat) : Event → Bool
  | .tpuWrite off val => if off / 2 = 0 then bitSet val 4 else w.armed
  | _ => w.armed && n == 0

def nextEnabled (w : Armed) : Event → Bool
  | .tpuWrite off val => if off / 2 = 1 then !bitSet val 2 else w.enabled
  | _ => w.enabled

def watch (g : Gates) : Machine Armed Event Sent where
  step w e :=
    let r := w.bridge.step g e
    let n := r.2.countP Sent.carries
    ({ bridge := r.1, armed := nextArmed w n e, enabled := nextEnabled w e
       armings := w.armings + e.arms.toNat, announced := w.announced + n }, r.2)

/-- Every TICK of the step has the bit exactly if the interrupt is armed and enabled. -/
def CarriesExactly (g : Gates) (w : Armed) (e : Event) : Prop :=
  ∀ fn b offset, .tick fn b offset ∈ ((watch g).step w e).2 →
    bitSet b 16 = (w.armed && w.enabled)

/-- The registers are what the firmware wants, and an arming not announced yet is counted. -/
structure Follows (w : Armed) : Prop where
  en : w.bridge.connected = true → w.bridge.dspEn = w.armed
  off : w.bridge.connected = true → w.bridge.dspOff = !w.enabled
  count : w.announced + w.armed.toNat ≤ w.armings

theorem follows_init : Follows Armed.init := ⟨fun _ => rfl, fun _ => rfl, by decide⟩

/-- Everything but a write to the TPU has such an effect. -/
theorem effect_step (g : Gates) (s : Bridge) {e : Event} (he : ∀ off val, e ≠ .tpuWrite off val) :
    Effect s (s.step g e) := by
  cases e with
  | tpuWrite off val => exact absurd rfl (he off val)
  | offset w | dspPage v | dcch tn genre ss => exact .quiet (fun h => ⟨h, rfl, rfl⟩) tickless_nil
  | bootTick r =>
    show Effect s (if s.trx.tdmaRunning then (s, []) else s.echange false r)
    split
    · exact .quiet (Same.refl s) tickless_nil
    · exact effect_echange s false r
  | bootPas r =>
    show Effect s (if s.trx.tdmaRunning then (s, []) else s.bootPas r)
    split
    · exact .quiet (Same.refl s) tickless_nil
    · exact effect_bootPas s r
  | tick env =>
    show Effect s (if s.trx.tdmaRunning then s.tdmaTick g env else (s, []))
    split
    · exact effect_tdmaTick g s env
    · exact .quiet (Same.refl s) tickless_nil
  | force fn env => exact (effect_tdmaTick g _ env).after fun h => ⟨h, rfl, rfl⟩

theorem countP_tickless (h : Tickless os) : os.countP Sent.carries = 0 := by
  rw [List.countP_eq_zero]
  intro o ho
  cases o with
  | tick fn b w => exact absurd ho (h fn b w)
  | go fn | dcch tn genre ss => exact Bool.false_ne_true

/-- A step sends one TICK at most, with the bit or without. -/
theorem countP_ticked (h : Tickless os) (fn : Nat) (b : BitVec 32) (w : Word) :
    (os ++ [Sent.tick fn b w]).countP Sent.carries = (bitSet b 16).toNat := by
  have hlast : Sent.carries (.tick fn b w) = bitSet b 16 := rfl
  rw [List.countP_append, countP_tickless h, List.countP_singleton, hlast]
  cases bitSet b 16 with
  | true | false => rfl

/-- A write to the TPU is followed, and sends nothing. -/
theorem follows_tpuWrite {w : Armed} (h : Follows w) (off : Nat) (val : BitVec 32) :
    Follows ((watch g).step w (.tpuWrite off val)).1 := by
  obtain ⟨hconn, hen, hoff⟩ := tpuWrite_bits w.bridge off val
  refine ⟨fun hc => ?_, fun hc => ?_, ?_⟩
  · show (w.bridge.tpuWrite off val).dspEn = if off / 2 = 0 then bitSet val 4 else w.armed
    rw [hen, h.en (hconn.symm.trans hc)]
  · show (w.bridge.tpuWrite off val).dspOff = !if off / 2 = 1 then !bitSet val 2 else w.enabled
    rw [hoff, h.off (hconn.symm.trans hc)]
    split
    · rw [Bool.not_not]
    · rfl
  · have hcount := h.count
    show w.announced + 0 + (if off / 2 = 0 then bitSet val 4 else w.armed).toNat ≤
      w.armings + (off / 2 == 0 && bitSet val 4).toNat
    by_cases hreg : off / 2 = 0
    · rw [if_pos hreg, hreg, beq_self_eq_true, Bool.true_and]
      omega
    · rw [if_neg hreg]
      omega

theorem follows_step (g : Gates) (w : Armed) (e : Event) (h : Follows w) :
    Follows ((watch g).step w e).1 ∧ CarriesExactly g w e := by
  by_cases he : ∃ off val, e = .tpuWrite off val
  · obtain ⟨off, val, rfl⟩ := he
    exact ⟨follows_tpuWrite h off val, fun _ _ _ hmem => absurd hmem List.not_mem_nil⟩
  replace he : ∀ off val, e ≠ .tpuWrite off val := fun off val heq => he ⟨off, val, heq⟩
  have hstep : ∀ n, nextArmed w n e = (w.armed && n == 0) ∧ nextEnabled w e = w.enabled ∧
      e.arms = false := by
    intro n
    cases e with
    | tpuWrite off val => exact absurd rfl (he off val)
    | _ => exact ⟨rfl, rfl, rfl⟩
  have heff := effect_step g w.bridge he
  unfold CarriesExactly watch
  dsimp only
  generalize w.bridge.step g e = r at heff
  obtain ⟨harmed, henabled, harms⟩ := hstep (r.2.countP Sent.carries)
  rw [harmed, henabled, harms]
  have hcount := h.count
  cases heff with
  | @quiet s' os hsame hno =>
    rw [countP_tickless hno, beq_self_eq_true, Bool.and_true]
    refine ⟨⟨fun hc => ?_, fun hc => ?_, hcount⟩, fun fn b offset hmem => ?_⟩
    · rw [(hsame hc).2.1, h.en (hsame hc).1]
    · rw [(hsame hc).2.2, h.off (hsame hc).1]
    · exact absurd hmem (hno fn b offset)
  | @ticked s' os fn b offset hc hb hbits hno =>
    rw [h.en hc, h.off hc, Bool.not_not] at hb
    rw [h.en hc, h.off hc] at hbits
    rw [countP_ticked hno, hb]
    refine ⟨⟨fun hc' => ?_, fun hc' => (hbits hc').2, ?_⟩, fun fn' b' offset' hmem => ?_⟩
    · show s'.dspEn = _
      rw [(hbits hc').1]
      cases w.armed <;> cases w.enabled <;> rfl
    · dsimp only
      cases ha : w.armed <;> cases w.enabled <;> rw [ha] at hcount <;> simp at hcount ⊢ <;> omega
    · rcases List.mem_append.mp hmem with hmem | hmem
      · exact absurd hmem (hno fn' b' offset')
      · obtain ⟨-, hbits', -⟩ := Sent.tick.inj (List.mem_singleton.mp hmem)
        rw [hbits', hb]

/-- In every mode and whatever the DSP and the ARM do, a TICK carries the frame-interrupt bit
exactly when the firmware's last write to TPU_CTRL since the last TICK that carried it has DSP_EN
set and the interrupt is enabled; so that there are no more TICKs with the bit than armings. -/
theorem tick_carries_iff (g : Gates) (es : List Event) :
    (watch g).Along (CarriesExactly g) Armed.init es ∧
      ((watch g).final Armed.init es).announced ≤ ((watch g).final Armed.init es).armings := by
  constructor
  · refine (Machine.Along.congr (I := Follows) (D := fun _ _ => True)
      (fun w e h _ => iff_true_intro (follows_step g w e h).2)
      (fun w e h _ _ => (follows_step g w e h).1) follows_init (Machine.along_true _ _)).mpr ?_
    exact Machine.along_true _ _
  · have hcount := (Machine.invariant (C := fun _ _ => True)
      (fun w e h _ => (follows_step g w e h).1) follows_init (Machine.along_true _ es)).count
    exact Nat.le_trans (Nat.le_add_right _ _) hcount

end Bridge

end Qosmo
