import Qosmo.C54x.Run

/-!
# Qosmo.C54x.Steps

What one event can do, said once.

The results about interrupts ask of every entry by which path it came, which guards
it passed and in which state it was made. `guarded_of_step` is the table of the
guards, one row per path. Two paths have weaker guards than the others, and for
these `replay_of_step` and `wake_of_step` go back to the state the event found.

The IDLE branch is also entered from inside a turn: the instruction is IDLE and the
timer expires in the same turn (`idlesUnderTimer`).
-/

namespace Qosmo.C54x

open State

variable {g : Gates} {bus : Bus} {s : State} {e : Event} {t : Taken}

/-! ### IDLE is the only instruction that stops the core -/

def isIdle (op : Word) : Bool := op &&& 0xFCFF == 0xF4E1

def Entry.isHalt (e : Entry) : Bool := match e.act with
  | .halt => true
  | _ => false

/-- Only one test of the decoder leads to IDLE. -/
theorem halt_of_mem_family {k : Nat} {e : Entry} (he : e ∈ family k) (hh : e.isHalt) :
    e.mask = 0xFCFF ∧ e.value = 0xF4E1 := by
  have hall : (family k).all fun e => !e.isHalt || (e.mask == 0xFCFF && e.value == 0xF4E1) := by
    unfold family
    split <;> rfl
  have h := List.all_eq_true.mp hall e he
  rw [hh] at h
  simpa using h

theorem decode_eq_halt {op : Word} (h : decode op = .halt) : isIdle op := by
  unfold decode at h
  split at h
  case h_1 e he =>
    have hhit := List.find?_some he
    obtain ⟨hm, hv⟩ := halt_of_mem_family (List.mem_of_find?_eq_some he) (by simp [Entry.isHalt, h])
    simpa [Entry.hits, isIdle, hm, hv] using hhit
  case h_2 => cases h

/-- An execution that stops the core ran IDLE outside the boot stub, and changed
nothing else. -/
theorem execOp_eq_idle {op : Word} {c : Ctx} {s : Cpu} (h : (execOp op c s).1 = .idle) :
    isIdle op ∧ inBootStub c.pc = false ∧ (execOp op c s).2 =
    { s with lkUsed := false } := by
  have hrun : execOp op c s = (decode op).run op c { s with lkUsed := false } := rfl
  rw [hrun] at h ⊢
  cases hd : decode op with
  | plain f | control f =>
    rw [hd] at h
    cases h
  | halt =>
    rw [hd] at h
    change (if inBootStub c.pc then Outcome.flow (.next 1) else .idle) = .idle at h
    refine ⟨decode_eq_halt hd, ?_, rfl⟩
    cases hb : inBootStub c.pc with
    | false => rfl
    | true => simp [hb] at h

/-! ### The guards of the four paths -/

/-- What the code has checked before it enters an interrupt by each path. -/
def Taken.Guarded (t : Taken) : Prop :=
  bitSet t.pre.imr t.bit = true ∧
  match t.path with
  | .level => t.pre.intm = false ∧ t.pre.delaySlots = 0
  | .replay => t.pre.intm = false
  | .request => t.pre.intm = false ∧ t.pre.delaySlots = 0
  | .wake => t.pre.idle = true

/-- The request selected among the pending ones is enabled in IMR. -/
theorem imr_of_ctz_pending {b : Nat} (h : ctz s.pending = some b) : bitSet s.imr b := by
  have hb := List.find?_some (p := (bitSet s.pending ·)) h
  simp only [bitSet, pending, BitVec.getLsbD_and, Bool.and_eq_true] at hb
  exact hb.2

theorem levelBit_eq_some {b : Nat} (h : levelBit s = some b) :
    s.intm = false ∧ s.delaySlots = 0 ∧ bitSet s.imr b := by
  unfold levelBit at h
  split at h
  · cases h
  · rename_i hguard
    split at h
    · cases h
    · simp only [Bool.or_eq_true, bne_iff_ne, ne_eq, not_or, Bool.not_eq_true,
        Decidable.not_not] at hguard
      exact ⟨hguard.1, hguard.2, imr_of_ctz_pending h⟩

theorem dmaLevel_eq (bus : Bus) (s : State) : ∃ ifr, dmaLevel bus s = { s with ifr := ifr } := by
  unfold dmaLevel
  split
  · exact ⟨_, rfl⟩
  · exact ⟨s.ifr, rfl⟩

theorem toSeq_dmaLevel (bus : Bus) (s : State) : (dmaLevel bus s).toSeq = s.toSeq := by
  obtain ⟨ifr, heq⟩ := dmaLevel_eq bus s
  rw [heq]

def State.pc16 (s : State) : Word := s.pc.setWidth 16

/-- Where a core goes on after an interrupt: behind the IDLE that stopped it, or at PC. -/
def State.resumePc (s : State) : Word := (if s.idle then s.pc + 1 else s.pc).setWidth 16

/-- The entry a level check makes: from the state with the DMA request raised, with an
XPC word only when XPC is not zero. -/
theorem levelCheck_eq_some (h : (levelCheck g bus s).2 = some t) :
    t.path = .level ∧ t.Guarded ∧ t.pre = dmaLevel bus s ∧
    (levelCheck g bus s).1 = enter (t.pre.ctx bus) t.pre t.vec t.bit t.pre.pc16 false := by
  unfold levelCheck at h ⊢
  split at h
  · rename_i hg
    rw [if_pos hg]
    dsimp only at h ⊢
    split at h
    case h_1 b hb =>
      obtain ⟨hintm, hslots, himr⟩ := levelBit_eq_some hb
      cases h
      exact ⟨rfl, ⟨himr, hintm, hslots⟩, rfl, rfl⟩
    case h_2 => cases h
  · cases h

theorem replay_eq_some (h : (replay bus s).2 = some t) :
    t.Guarded ∧ t = ⟨.replay, t.vec, t.bit, s⟩ ∧
    (replay bus s).1 = enter (s.ctx bus) s t.vec t.bit s.pc16 true := by
  unfold replay at h ⊢
  split at h
  case h_1 b hb =>
    cases h
    refine ⟨?_, rfl, rfl⟩
    unfold replayBit at hb
    split at hb
    · cases hb
    · rename_i hintm
      exact ⟨imr_of_ctz_pending hb, by simpa using hintm⟩
  case h_2 => cases h

theorem replay_eq_none (h : (replay bus s).2 = none) : replay bus s = (s, none) := by
  unfold replay at h ⊢
  split at h
  · cases h
  · rfl

theorem replay_path (h : (replay bus s).2 = some t) : t.path = .replay := by
  rw [(replay_eq_some h).2.1]

/-- The block repeat is as it was: its registers, and whether it is active. -/
structure SameBlock (s s' : State) : Prop where
  brc : s'.brc = s.brc
  rsa : s'.rsa = s.rsa
  rea : s'.rea = s.rea
  active : s'.rptbActive = s.rptbActive

variable {vec bit : Nat}

/-- The entry a request makes: the request is latched first, and a core in IDLE is woken
and returns behind the IDLE. -/
theorem interruptEx_eq_some (h : (interruptEx bus s vec bit).2 = some t) :
    t = ⟨t.path, vec, bit, s⟩ ∧ (t.path = .request ∨ t.path = .wake) ∧ t.Guarded ∧
    ∃ idle, (interruptEx bus s vec bit).1 =
      enter (s.ctx bus) { s with ifr := setBit s.ifr bit, idle := idle } vec bit s.resumePc true := by
  unfold interruptEx at h ⊢
  unfold resumePc
  dsimp only at h ⊢
  split_ifs at h ⊢ with hrange hidle himr hguard
  -- the core is in IDLE
  · cases h
    exact ⟨rfl, .inr rfl, ⟨himr, hidle⟩, false, rfl⟩
  -- the core is running
  · cases h
    simp only [Bool.and_eq_true, Bool.not_eq_true', beq_iff_eq] at hguard
    exact ⟨rfl, .inl rfl, ⟨hguard.1.2, hguard.1.1, hguard.2⟩, s.idle, rfl⟩

/-- A request is never entered by the paths of a turn. -/
theorem interruptEx_path (h : (interruptEx bus s vec bit).2 = some t) :
    t.path ≠ .replay ∧ t.path ≠ .level := by
  obtain ⟨-, hpath | hpath, -⟩ := interruptEx_eq_some h <;> simp [hpath]

/-! ### The timer inside a turn -/

/-- The timer is about to expire. -/
def timerDue (s : State) : Bool :=
  !bitSet (s.data tcrAddr) Tcr.tss && s.timerPsc == 0 && s.data timAddr == 0

theorem timer_of_due (bus : Bus) (h : timerDue s) :
    timer bus s = interruptEx bus (loadTimer s (s.data prdAddr)) 19 3 := by
  simp only [timerDue, Bool.and_eq_true, Bool.not_eq_true', beq_iff_eq] at h
  unfold timer
  rw [if_neg (by simp [h.1.1]), if_pos h.1.2, if_pos h.2]

theorem timer_of_not_due (bus : Bus) (h : timerDue s = false) :
    ∃ data psc, timer bus s = ({ s with data := data, timerPsc := psc }, none) := by
  unfold timer
  split_ifs with htss hpsc htim
  · exact ⟨s.data, s.timerPsc, rfl⟩
  · simp [timerDue, htss, hpsc, htim] at h
  · exact ⟨_, _, rfl⟩
  · exact ⟨s.data, _, rfl⟩

theorem timer_eq_some (h : (timer bus s).2 = some t) :
    timerDue s ∧ (interruptEx bus (loadTimer s (s.data prdAddr)) 19 3).2 = some t := by
  cases hdue : timerDue s with
  | true =>
    rw [timer_of_due bus hdue] at h
    exact ⟨rfl, h⟩
  | false =>
    obtain ⟨data, psc, heq⟩ := timer_of_not_due bus hdue
    rw [heq] at h
    cases h

/-- The repeat is counted, or it is switched off if it has just ended, and the turn goes on. -/
theorem repeatOrComplete_eq (bus : Bus) (execPc : Word) (ds : BitVec 8) (was : Bool) (n : Nat)
    (s : State) :
    (∃ count cycles, repeatOrComplete bus execPc ds was n s =
      ({ s with rptCount := count, cycles := cycles }, none)) ∨
    ∃ rpt, repeatOrComplete bus execPc ds was n s =
      complete bus execPc ds n { s with rptActive := rpt } := by
  unfold repeatOrComplete
  split_ifs
  · exact .inl ⟨s.rptCount, _, rfl⟩
  · exact .inl ⟨_, _, rfl⟩
  · exact .inr ⟨false, rfl⟩
  · exact .inr ⟨s.rptActive, rfl⟩

/-- The timer's request comes after PC has moved. -/
theorem repeatOrComplete_eq_some {execPc : Word} {ds : BitVec 8} {was : Bool} {n : Nat}
    (h : (repeatOrComplete bus execPc ds was n s).2 = some t) :
    ∃ rpt, (timer bus (advance n { s with rptActive := rpt })).2 = some t := by
  rcases repeatOrComplete_eq bus execPc ds was n s with ⟨count, cycles, heq⟩ | ⟨rpt, heq⟩
  · rw [heq] at h
    cases h
  · rw [heq] at h
    exact ⟨rpt, h⟩

theorem countSlots_eq (ds : BitVec 8) (n : Nat) (q : Seq) :
    ∃ slots pc, countSlots ds n q = { q with delaySlots := slots, pc := pc } := by
  unfold countSlots
  split
  · exact ⟨q.delaySlots, q.pc, rfl⟩
  · dsimp only
    generalize (if 0 < n then n else 1) = w
    split
    · exact ⟨_, q.pc, rfl⟩
    · exact ⟨0, _, rfl⟩

theorem countSlots_of_zero {ds : BitVec 8} {n : Nat} {q : Seq} (h : q.delaySlots = 0) :
    countSlots ds n q = q := if_pos (Or.inl h)

theorem blockRepeat_eq (execPc pcSeq : Word) (n : Nat) (s : State) :
    ∃ brc st1 act pc, blockRepeat execPc pcSeq n s =
      { s with brc := brc, st1 := st1, rptbActive := act, pc := pc } := by
  unfold blockRepeat
  split
  · split
    · exact ⟨_, s.st1, s.rptbActive, _, rfl⟩
    · exact ⟨s.brc, _, false, s.pc, rfl⟩
  · exact ⟨s.brc, s.st1, s.rptbActive, s.pc, rfl⟩

/-- A request to a running core that is not entered is latched at most. -/
theorem interruptEx_eq_none (hidle : s.idle = false) (h : (interruptEx bus s vec bit).2 = none) :
    ∃ ifr, (interruptEx bus s vec bit).1 = { s with ifr := ifr } := by
  have hrun : ¬ s.idle := by simp [hidle]
  unfold interruptEx at h ⊢
  by_cases hrange : 32 ≤ vec ∨ 16 ≤ bit
  · rw [if_pos hrange]
    exact ⟨s.ifr, rfl⟩
  · rw [if_neg hrange] at h ⊢
    dsimp only at h ⊢
    rw [if_neg hrun] at h ⊢
    split at h
    · cases h
    · rename_i hguard
      rw [if_neg hguard]
      exact ⟨_, rfl⟩

theorem timer_eq_none (hidle : s.idle = false) (h : (timer bus s).2 = none) :
    ∃ data psc ifr, (timer bus s).1 = { s with data := data, timerPsc := psc, ifr := ifr } := by
  cases hdue : timerDue s with
  | true =>
    rw [timer_of_due bus hdue] at h ⊢
    obtain ⟨ifr, hifr⟩ := interruptEx_eq_none (s := loadTimer s (s.data prdAddr)) hidle h
    exact ⟨_, _, ifr, hifr⟩
  | false =>
    obtain ⟨data, psc, heq⟩ := timer_of_not_due bus hdue
    rw [heq]
    exact ⟨data, psc, s.ifr, rfl⟩

/-- The tick of a running core enters the timer's interrupt. -/
def tickEnters (s : State) : Bool :=
  timerDue s && bitSet s.imr 3 && !s.intm && s.delaySlots == 0

theorem timer_of_not_enters (hidle : s.idle = false) (h : tickEnters s = false) :
    (timer bus s).2 = none := by
  cases ht : (timer bus s).2 with
  | none => rfl
  | some t =>
    obtain ⟨hdue, hint⟩ := timer_eq_some ht
    obtain ⟨heq, hpath, ⟨himr, hguard⟩, -⟩ := interruptEx_eq_some hint
    rw [heq] at himr hguard
    have himr : bitSet s.imr 3 := himr
    rcases hpath with hpath | hpath <;> rw [hpath] at hguard
    · have hguard : s.intm = false ∧ s.delaySlots = 0 := hguard
      simp [tickEnters, hdue, himr, hguard.1, hguard.2] at h
    · have hon : s.idle := hguard
      rw [hidle] at hon
      cases hon

theorem interruptEx_of_enabled (bus : Bus) (hrange : vec < 32 ∧ bit < 16) (hidle : s.idle = false)
    (hguard : (!s.intm && bitSet s.imr bit && s.delaySlots == 0)) :
    (interruptEx bus s vec bit).1 =
      enter (s.ctx bus) { s with ifr := setBit s.ifr bit } vec bit s.pc16 true := by
  unfold interruptEx
  rw [if_neg (by omega)]
  dsimp only
  rw [if_neg (ne_true_of_eq_false hidle), if_pos hguard]
  rfl

/-- Where the tick enters, it makes the entry of a request. -/
theorem timer_of_enters (hidle : s.idle = false) (h : tickEnters s) :
    ∃ data psc ifr, (timer bus s).1 =
      enter (s.ctx bus) { s with data := data, timerPsc := psc, ifr := ifr } 19 3 s.pc16 true := by
  simp only [tickEnters, Bool.and_eq_true, Bool.not_eq_true', beq_iff_eq] at h
  obtain ⟨⟨⟨hdue, himr⟩, hintm⟩, hslots⟩ := h
  rw [timer_of_due bus hdue]
  have hguard : (!s.intm && bitSet s.imr 3 && s.delaySlots == 0) := by
    simp [hintm, himr, hslots]
  exact ⟨_, _, _, interruptEx_of_enabled (s := loadTimer s (s.data prdAddr)) bus (by decide) hidle
    hguard⟩

/-- The turn after its instruction: the delay slots and the block repeat. -/
def afterSlots (execPc : Word) (ds : BitVec 8) (n : Nat) (s : State) : State :=
  blockRepeat execPc (s.pc.setWidth 16) n { s with toSeq := countSlots ds n s.toSeq }

/-- With the tick in front of it, that is all there is to the rest of the turn, up to the
counters. -/
theorem complete_eq_afterSlots (bus : Bus) (execPc : Word) (ds : BitVec 8) (n : Nat) (s : State) :
    ∃ cycles insns, (complete bus execPc ds n s).1 =
      { afterSlots execPc ds n (timer bus (advance n s)).1 with
        cycles := cycles, insnCount := insns } := ⟨_, _, rfl⟩

/-- A tick that enters nothing does not show in the delay slots and the block repeat: they
read neither the timer registers nor IFR. -/
theorem afterSlots_timer (execPc : Word) (ds : BitVec 8) (n : Nat) (hidle : s.idle = false)
    (h : (timer bus s).2 = none) :
    ∃ data psc ifr, afterSlots execPc ds n (timer bus s).1 =
      { afterSlots execPc ds n s with data := data, timerPsc := psc, ifr := ifr } := by
  obtain ⟨data, psc, ifr, hst⟩ := timer_eq_none hidle h
  have hblock : ∀ (pcSeq : Word) (v : State),
      blockRepeat execPc pcSeq n { v with data := data, timerPsc := psc, ifr := ifr } =
        { blockRepeat execPc pcSeq n v with data := data, timerPsc := psc, ifr := ifr } := by
    intro pcSeq v
    unfold blockRepeat blockEnd
    split
    · split <;> rfl
    · rfl
  have hcomm := hblock (s.pc.setWidth 16) { s with toSeq := countSlots ds n s.toSeq }
  refine ⟨data, psc, ifr, ?_⟩
  simp only [afterSlots, hst]
  rw [hcomm]

theorem complete_eq (execPc : Word) (ds : BitVec 8) {n : Nat} (hidle : s.idle = false)
    (h : (timer bus (advance n s)).2 = none) :
    ∃ data psc ifr cycles insns, (complete bus execPc ds n s).1 =
      { afterSlots execPc ds n (advance n s) with
        data := data, timerPsc := psc, ifr := ifr, cycles := cycles, insnCount := insns } := by
  obtain ⟨cycles, insns, heq⟩ := complete_eq_afterSlots bus execPc ds n s
  obtain ⟨data, psc, ifr, hst⟩ := afterSlots_timer (s := advance n s) execPc ds n hidle h
  rw [heq, hst]
  exact ⟨data, psc, ifr, cycles, insns, rfl⟩

/-! ### Up to the instruction -/

variable (s)

/-- Seeding 0x435B does not change the instruction about to run: the seeding site lies
outside the overlay. -/
@[simp] theorem opAt_prepare : opAt (prepare s) = opAt s := by
  simp only [prepare, seed435b]
  split
  · rename_i hpc
    have hout : inOverlay s.toCpu (s.pc.setWidth 16) = false := by
      rw [hpc.1]
      simp [inOverlay]
    have hout' : inOverlay (setData s.toCpu 0x435B 0x52ED) (s.pc.setWidth 16) = false := hout
    simp only [opAt, progFetch, hout, noteOp]
    exact if_neg (by simpa [inOverlay] using hout')
  · rfl

@[simp] theorem timerDue_prepare : timerDue (prepare s) = timerDue s := by
  simp only [prepare, seed435b]
  split <;> simp [timerDue, noteOp, setData, tcrAddr, timAddr, Function.update]

/-- What happens in front of the instruction concerns the data memory and the history of
opcodes. -/
theorem prepare_eq : ∃ data last prev fiable, prepare s =
    { s with data := data, lastRunOp := last, prevOp := prev, tcFiable := fiable } := by
  simp only [prepare, seed435b]
  split
  · exact ⟨_, _, _, _, rfl⟩
  · exact ⟨s.data, _, _, _, rfl⟩

theorem toSeq_prepare : (prepare s).toSeq = s.toSeq := by
  obtain ⟨data, last, prev, fiable, heq⟩ := prepare_eq s
  rw [heq]

theorem st1_prepare : (prepare s).st1 = s.st1 := by
  obtain ⟨data, last, prev, fiable, heq⟩ := prepare_eq s
  rw [heq]

theorem imr_prepare : (prepare s).imr = s.imr := by
  obtain ⟨data, last, prev, fiable, heq⟩ := prepare_eq s
  rw [heq]

variable {s}

theorem levelCheck_eq_none (h : (levelCheck g bus s).2 = none) :
    ∃ ifr, (levelCheck g bus s).1 = { s with ifr := ifr } := by
  unfold levelCheck at h ⊢
  split
  · rename_i hg
    rw [if_pos hg] at h
    dsimp only at h ⊢
    split at h
    · cases h
    · exact dmaLevel_eq bus s
  · exact ⟨s.ifr, rfl⟩

theorem idle_levelCheck (g : Gates) (bus : Bus) (s : State) :
    (levelCheck g bus s).1.idle = s.idle := by
  have hdma : (dmaLevel bus s).idle = s.idle := congrArg Seq.idle (toSeq_dmaLevel bus s)
  unfold levelCheck
  split
  · dsimp only
    split <;> exact hdma
  · rfl

/-! ### An instruction that stops the core -/

/-- The overflow pass concerns the accumulators and their overflow bits. -/
theorem overflowPass_eq (before s : Cpu) :
    ∃ a b st0, overflowPass before s = { s with a := a, b := b, st0 := st0 } := by
  have hacc : ∀ (isB : Bool) (old : Acc) (s : Cpu), ∃ a b st0,
      overflowAcc isB old s = { s with a := a, b := b, st0 := st0 } := by
    intro isB old s
    simp only [overflowAcc]
    split
    · exact ⟨s.a, s.b, s.st0, rfl⟩
    · split
      · split
        · exact ⟨s.a, _, _, rfl⟩
        · exact ⟨_, s.b, _, rfl⟩
      · exact ⟨s.a, s.b, _, rfl⟩
  unfold overflowPass
  split
  · exact ⟨s.a, s.b, s.st0, rfl⟩
  · obtain ⟨a, b, st0, hfirst⟩ := hacc false before.a s
    obtain ⟨a', b', st0', hsecond⟩ := hacc true before.b (overflowAcc false before.a s)
    exact ⟨a', b', st0', hsecond.trans (by rw [hfirst])⟩

theorem overflowPass_of_eq {before s : Cpu} (ha : s.a = before.a) (hb : s.b = before.b) :
    overflowPass before s = s := by
  simp [overflowPass, overflowAcc, Cpu.acc, ha, hb]

theorem idle_applyFlow (q : Seq) (f : Flow) : (applyFlow q f).1.idle = q.idle := by
  cases f <;> rfl

/-- If a running core is stopped when the instruction is over, the instruction was
IDLE, and it did nothing but stop the core. -/
theorem execSettled_idle (hs : s.idle = false) (h : (execSettled g bus s).1.idle) :
    isIdle (opAt s) ∧ inBootStub s.pc = false ∧
      ∃ ifr, (execSettled g bus s).1 = { s with ifr := ifr, lkUsed := false, idle := true } := by
  cases hlc : (levelCheck g bus s).2 with
  | some t =>
    simp only [execSettled, execOne, hlc] at h
    rw [idle_levelCheck, hs] at h
    cases h
  | none =>
    obtain ⟨ifr, hifr⟩ := levelCheck_eq_none hlc
    simp only [execSettled, execOne, hlc, hifr, execute] at h ⊢
    -- the fetch does not look at IFR
    have hop : opAt { s with ifr := ifr } = opAt s := rfl
    rw [hop] at h ⊢
    cases hout : (execOp (opAt s) (ctx bus { s with ifr := ifr }) { s with ifr := ifr }).1 with
    | flow f =>
      rw [hout] at h
      change (applyFlow _ f).1.idle = true at h
      rw [idle_applyFlow] at h
      rw [hs] at h
      cases h
    | idle =>
      obtain ⟨hidle, hboot, hcpu⟩ := execOp_eq_idle hout
      refine ⟨hidle, hboot, ifr, ?_⟩
      have hov : overflowPass s.toCpu { s.toCpu with ifr := ifr, lkUsed := false } =
          { s.toCpu with ifr := ifr, lkUsed := false } := overflowPass_of_eq rfl rfl
      simp only [applyOutcome, hcpu, hov]

/-! ### The entries of a turn -/

/-- The instruction at PC is an IDLE that stops the core, and the timer expires in the
same turn with TINT enabled. -/
def idlesUnderTimer (s : State) : Bool :=
  isIdle (opAt s) && !inBootStub s.pc && timerDue s && bitSet s.imr 3

theorem executes_iff :
    s.executes ↔ s.running ∧ s.idle = false ∧ idleFastForward s = false := by
  simp only [executes, Bool.and_eq_true, Bool.not_eq_true', and_assoc]

/-- A turn that executes something: the replay, then the instruction. -/
theorem pass_of_executes (h : s.executes) :
    pass g bus s = ((instruction g bus (replay bus s).1).1,
      ((replay bus s).2.map Obs.taken).toList ++ (instruction g bus (replay bus s).1).2) := by
  obtain ⟨hrun, hidle, hff⟩ := executes_iff.mp h
  simp [pass, hrun, hidle, hff]

/-- The interrupts entered in a turn: by replay, by the level check, or by the timer. -/
theorem taken_of_pass (h : Obs.taken t ∈ (pass g bus s).2) :
    s.executes ∧ s.idle = false ∧
    ((replay bus s).2 = some t ∨
      (levelCheck g bus (prepare (replay bus s).1)).2 = some t ∨
      ∃ rpt, (timer bus (advance (execSettled g bus (prepare (replay bus s).1)).2.1
        { (execSettled g bus (prepare (replay bus s).1)).1 with rptActive := rpt })).2 = some t) := by
  unfold pass at h
  split at h
  · cases h
  rename_i hrun
  simp only [Bool.or_eq_true, Bool.not_eq_true', not_or, Bool.not_eq_false,
    Bool.not_eq_true] at hrun
  split at h
  · cases h
  rename_i hff
  refine ⟨executes_iff.mpr ⟨hrun.1, hrun.2, by simpa using hff⟩, hrun.2, ?_⟩
  simp only [instruction, List.mem_append, List.mem_cons, Option.mem_toList,
    Option.map_eq_some_iff, Obs.taken.injEq, exists_eq_right] at h
  rcases h with h | h | h
  · exact Or.inl h
  · -- the observation of the instruction itself
    refine Or.inr (Or.inl ?_)
    simp only [execSettled, execOne] at h
    split at h
    case h_1 t' ht' =>
      cases h
      exact ht'
    case h_2 => cases h
  · exact Or.inr (Or.inr (repeatOrComplete_eq_some h))

/-- Only a turn or a request enters an interrupt. -/
theorem taken_of_step (h : Obs.taken t ∈ (step g s e).2) :
    (∃ bus, e = .pass bus ∧ Obs.taken t ∈ (pass g bus s).2) ∨
    (∃ bus vec bit, e = .request bus vec bit ∧ (interruptEx bus s vec bit).2 = some t) := by
  cases e with
  | pass bus => exact Or.inl ⟨bus, rfl, h⟩
  | request bus vec bit =>
    simp only [step, Option.mem_toList, Option.map_eq_some_iff, Obs.taken.injEq,
      exists_eq_right] at h
    exact Or.inr ⟨bus, vec, bit, rfl, h⟩
  | wake | poke addr v | reset regs => cases h

/-- What every step that meets `C` sees at its entries, every run whose steps meet `C`
sees at its entries. -/
theorem taken_of_run {C : State → Event → Prop} {P : Taken → Prop} {es : List Event}
    (hstep : ∀ s e, C s e → ∀ t, Obs.taken t ∈ (step g s e).2 → P t)
    (hC : (core g).Along C s es) : ∀ t, Obs.taken t ∈ (core g).trace s es → P t := by
  intro t ht
  have hall := Machine.trace_forall (M := core g) (I := fun _ => True)
    (P := fun o => ∀ t, o = .taken t → P t) (fun _ _ _ _ => trivial)
    (fun s e _ hse o ho t hot => hstep s e hse t (hot ▸ ho)) trivial hC
  exact hall _ ht t rfl

/-- Every entry passed the guards of its path. -/
theorem guarded_of_step (h : Obs.taken t ∈ (step g s e).2) : t.Guarded := by
  rcases taken_of_step h with ⟨bus, -, hpass⟩ | ⟨bus, vec, bit, -, hreq⟩
  · obtain ⟨-, -, hr | hl | ⟨rpt, ht⟩⟩ := taken_of_pass hpass
    · exact (replay_eq_some hr).1
    · exact (levelCheck_eq_some hl).2.1
    · exact (interruptEx_eq_some (timer_eq_some ht).2).2.2.1
  · exact (interruptEx_eq_some hreq).2.2.1

/-- A replayed interrupt is entered by a turn that executes something. -/
theorem replay_of_step (h : Obs.taken t ∈ (step g s e).2) (hp : t.path = .replay) :
    ∃ bus, e = .pass bus ∧ s.executes ∧ (replay bus s).2 = some t := by
  rcases taken_of_step h with ⟨bus, rfl, hpass⟩ | ⟨bus, vec, bit, -, hreq⟩
  · obtain ⟨hexec, -, hr | hl | ⟨rpt, ht⟩⟩ := taken_of_pass hpass
    · exact ⟨bus, rfl, hexec, hr⟩
    · rw [(levelCheck_eq_some hl).1] at hp
      cases hp
    · exact absurd hp (interruptEx_path (timer_eq_some ht).2).1
  · exact absurd hp (interruptEx_path hreq).1

@[simp] theorem idle_replay (bus : Bus) (s : State) : (replay bus s).1.idle = s.idle := by
  unfold replay
  split <;> rfl

@[simp] theorem delaySlots_replay (bus : Bus) (s : State) :
    (replay bus s).1.delaySlots = s.delaySlots := by
  unfold replay
  split <;> rfl

/-- An entry through the IDLE branch inside a turn: the core was running when the turn
began, so the turn ran IDLE, and the timer expired. -/
theorem wake_of_pass (h : Obs.taken t ∈ (pass g bus s).2) (hp : t.path = .wake) :
    s.executes ∧ idlesUnderTimer (replay bus s).1 ∧
      t.pre.delaySlots = s.delaySlots ∧ t.pre.intm = (replay bus s).1.intm := by
  obtain ⟨hexec, hrun, hr | hl | ⟨rpt, ht⟩⟩ := taken_of_pass h
  · rw [replay_path hr] at hp
    cases hp
  · rw [(levelCheck_eq_some hl).1] at hp
    cases hp
  · obtain ⟨hdue, hint⟩ := timer_eq_some ht
    obtain ⟨heq, -, ⟨himr, hguard⟩, -⟩ := interruptEx_eq_some hint
    have hpre := congrArg Taken.pre heq
    rw [hp] at hguard
    rw [heq] at himr
    rw [hpre] at hguard
    -- what stands between the state the timer saw and the one the turn began with
    obtain ⟨q, hq⟩ : ∃ q, (replay bus s).1 = q := ⟨_, rfl⟩
    obtain ⟨p, hprep⟩ : ∃ p, prepare q = p := ⟨_, rfl⟩
    have hseq : p.toSeq = q.toSeq := hprep ▸ toSeq_prepare q
    have hqidle : q.idle = false := by rw [← hq, idle_replay, hrun]
    have hqslots : q.delaySlots = s.delaySlots := by rw [← hq, delaySlots_replay]
    simp only [hq, hprep] at hdue hpre himr hguard ⊢
    have hpidle : p.idle = false := by rw [congrArg Seq.idle hseq, hqidle]
    obtain ⟨hop, hboot, ifr, hstate⟩ := execSettled_idle hpidle hguard
    rw [hstate] at hpre himr hdue
    rw [← hprep, opAt_prepare] at hop
    rw [congrArg Seq.pc hseq] at hboot
    have hdue : timerDue q := by
      rw [← timerDue_prepare q, hprep]
      exact hdue
    have himr : bitSet q.imr 3 := by
      rw [← imr_prepare q, hprep]
      exact himr
    refine ⟨hexec, by simp [idlesUnderTimer, hop, hboot, hdue, himr], ?_, ?_⟩
    · rw [hpre]
      exact (congrArg Seq.delaySlots hseq).trans hqslots
    · have hst1 : p.st1 = q.st1 := by rw [← hprep, st1_prepare]
      have hpre1 : t.pre.st1 = p.st1 := by rw [hpre]; rfl
      show bitSet t.pre.st1 St1.intm = bitSet q.st1 St1.intm
      rw [hpre1, hst1]

/-- An entry through the IDLE branch: a request to a core in IDLE, or IDLE and an
expiring timer in one turn. -/
theorem wake_of_step (h : Obs.taken t ∈ (step g s e).2) (hp : t.path = .wake) :
    (∃ bus vec bit, e = .request bus vec bit ∧ t.pre = s ∧ s.idle ∧
      bitSet s.imr bit) ∨
    (∃ bus, e = .pass bus ∧ s.executes ∧ idlesUnderTimer (replay bus s).1 ∧
      t.pre.delaySlots = s.delaySlots ∧ t.pre.intm = (replay bus s).1.intm) := by
  rcases taken_of_step h with ⟨bus, rfl, hpass⟩ | ⟨bus, vec, bit, rfl, hreq⟩
  · exact Or.inr ⟨bus, rfl, wake_of_pass hpass hp⟩
  · obtain ⟨heq, -, ⟨himr, hguard⟩, -⟩ := interruptEx_eq_some hreq
    rw [hp] at hguard
    rw [heq] at himr hguard
    exact Or.inl ⟨bus, vec, bit, rfl, congrArg Taken.pre heq, hguard, himr⟩

/-! ### Turns that begin with their own instruction -/

theorem replay_eq_self (bus : Bus) (h : s.intm ∨ s.pending = 0) :
    replay bus s = (s, none) := by
  have hbit : replayBit s = none := by
    unfold replayBit
    rcases h with h | h
    · rw [if_pos h]
    · rw [h]
      split <;> rfl
  simp only [replay, hbit]

/-- No enabled request is latched, and the DMA line raises none at the level check. -/
def Quiet (g : Gates) (bus : Bus) (s : State) : Prop :=
  (s.intm = true ∨ s.pending = 0) ∧
  (g.irqLevel = true → bus.dmaLine = true → s.intm = true ∨ bitSet s.imr 14 = false)

instance (g : Gates) (bus : Bus) (s : State) : Decidable (Quiet g bus s) :=
  inferInstanceAs (Decidable (_ ∧ _))

theorem pending_prepare (s : State) : (prepare s).pending = s.pending := by
  obtain ⟨data, last, prev, fiable, heq⟩ := prepare_eq s
  rw [heq]
  rfl

theorem pending_dmaLevel (hpend : s.pending = 0)
    (hline : bus.dmaLine → bitSet s.imr 14 = false) : (dmaLevel bus s).pending = 0 := by
  unfold dmaLevel
  split
  · rename_i hon
    have himr : s.imr.getLsbD 14 = false := hline hon
    have hpend : s.ifr &&& s.imr = 0#16 := hpend
    simp only [pending, setBit, BitVec.and_or_distrib_right, hpend, BitVec.twoPow_and, himr]
    rfl
  · exact hpend

theorem levelBit_eq_none (h : s.intm ∨ s.pending = 0) : levelBit s = none := by
  unfold levelBit
  rcases h with h | h
  · rw [if_pos (by simp [h])]
  · rw [h]
    split
    · rfl
    · split <;> rfl

theorem Quiet.levelCheck (h : Quiet g bus s) : (levelCheck g bus (prepare s)).2 = none := by
  obtain ⟨hq, hline⟩ := h
  have hintm : (prepare s).intm = s.intm := congrArg (bitSet · St1.intm) (st1_prepare s)
  have hintm' : (dmaLevel bus (prepare s)).intm = s.intm := by
    obtain ⟨ifr, heq⟩ := dmaLevel_eq bus (prepare s)
    rw [heq]
    exact hintm
  unfold C54x.levelCheck
  split
  · rename_i hg
    have hnone : levelBit (dmaLevel bus (prepare s)) = none := by
      apply levelBit_eq_none
      rw [hintm']
      by_cases hi : s.intm
      · exact Or.inl hi
      · refine Or.inr (pending_dmaLevel ?_ ?_)
        · rw [pending_prepare]
          exact hq.resolve_left hi
        · intro hon
          rw [imr_prepare]
          exact (hline hg hon).resolve_left hi
    simp only [hnone]
  · rfl

/-- What the rest of a turn reads of the core in front of the instruction. -/
theorem prepare_seq (s : State) : (prepare s).pc.setWidth 16 = s.pc16 ∧
    (prepare s).delaySlots = s.delaySlots ∧ (prepare s).rptActive = s.rptActive := by
  have hseq := toSeq_prepare s
  exact ⟨congrArg (fun q : Seq => q.pc.setWidth 16) hseq, congrArg Seq.delaySlots hseq,
    congrArg Seq.rptActive hseq⟩

/-- How the instruction of a quiet turn ends. -/
def outcomeAt (g : Gates) (bus : Bus) (s : State) : Outcome :=
  let l := (levelCheck g bus (prepare s)).1
  (execOp (opAt s) (l.ctx bus) l.toCpu).1

theorem pass_of_quiet (hexec : s.executes) (h : Quiet g bus s) :
    pass g bus s = instruction g bus s := by
  rw [pass_of_executes hexec, replay_eq_self bus h.1]
  rfl

/-- In a quiet state the opcode at PC is executed. The level check in front of it may
still have raised a disabled DMA request in IFR. -/
theorem execSettled_of_quiet (h : Quiet g bus s) :
    (execSettled g bus (prepare s)).1.toSeq =
      (applyOutcome s.toSeq (outcomeAt g bus s)).1 ∧
    (execSettled g bus (prepare s)).2 =
      ((applyOutcome s.toSeq (outcomeAt g bus s)).2, .exec s.pc (opAt s)) := by
  obtain ⟨ifr, hifr⟩ := levelCheck_eq_none h.levelCheck
  have hop : opAt { prepare s with ifr := ifr } = opAt s := opAt_prepare s
  have hseq : ({ prepare s with ifr := ifr } : State).toSeq = s.toSeq := toSeq_prepare s
  simp only [execSettled, execOne, h.levelCheck, execute, outcomeAt, hifr, hop, hseq]
  exact ⟨trivial, trivial⟩

/-! ### The instruction of a turn -/

/-- The state in which a turn decodes its instruction, if no level check takes its place. -/
def decoding (g : Gates) (bus : Bus) (s : State) : Option State :=
  if s.executes && (levelCheck g bus (prepare (replay bus s).1)).2.isNone then
    some (levelCheck g bus (prepare (replay bus s).1)).1
  else none

theorem decoding_eq_some {u : State} (h : decoding g bus s = some u) :
    s.executes ∧ levelCheck g bus (prepare (replay bus s).1) = (u, none) := by
  unfold decoding at h
  split at h
  · rename_i hif
    rw [Bool.and_eq_true, Option.isNone_iff_eq_none] at hif
    refine ⟨hif.1, Prod.ext (Option.some.inj h) hif.2⟩
  · cases h

/-- One instruction and the overflow pass behind it. -/
def runOp (c : Ctx) (op : Word) (s : Cpu) : Cpu := overflowPass s (execOp op c s).2

/-- A turn of the main loop that takes no interrupt runs the instruction at PC so. -/
theorem toCpu_execSettled {u : State} (h : levelCheck g bus s = (u, none)) :
    (execSettled g bus s).1.toCpu = runOp (u.ctx bus) (opAt u) u.toCpu := by
  obtain ⟨ifr, hifr⟩ := levelCheck_eq_none (congrArg Prod.snd h)
  replace hifr : u = { s with ifr := ifr } := (congrArg Prod.fst h).symm.trans hifr
  -- the overflow pass compares the accumulators only
  have hbefore : ∀ t, overflowPass s.toCpu t = overflowPass u.toCpu t := by
    intro t
    rw [hifr]
    rfl
  simp only [execSettled, execOne, h]
  exact hbefore _

end Qosmo.C54x
