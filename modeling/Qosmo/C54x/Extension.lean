import Qosmo.C54x.Steps
import Qosmo.C54x.Stores

/-!
# Qosmo.C54x.Extension

The accumulators along a run.

`canonical_execOp` says of one instruction that it keeps both accumulators the sign extension of
their 40 bits if the words it stores do. An interrupt entry stores as well, its frame, and SP may
point at a guard byte; a reset can load both guard bytes from a snapshot. `GuardSafe` collects
what an event stores, and `canonical_of_run` is the invariant. The condition is needed: one STM
to AG with bit 7 set leaves A a positive number of 40 bits (`stm_ag_not_extended`).
-/

namespace Qosmo.C54x

open Prog State

/-! ### One instruction -/

/-- The words an instruction stores, by the test the decoder selects. -/
def storesOf (op : Word) : Stores :=
  match (family (op >>> 12).toNat).find? (·.hits op) with
  | some e => storesAt e.value op
  | none => return []

/-- The instruction stores no guard byte with its sign set. -/
def StoresKept (op : Word) (c : Ctx) (s : Cpu) : Prop :=
  ∀ w ∈ (storesOf op c { s with lkUsed := false }).1, GuardKept w

instance (op : Word) (c : Ctx) (s : Cpu) : Decidable (StoresKept op c s) :=
  List.decidableBAll GuardKept _

theorem canonical_execOp {op : Word} {c : Ctx} {s : Cpu} (hs : Canonical s)
    (h : StoresKept op c s) : Canonical (execOp op c s).2 := by
  have hrun : (execOp op c s).2 = ((decode op).run op c { s with lkUsed := false }).2 := rfl
  have hs' : Canonical { s with lkUsed := false } := ⟨hs.a, hs.b⟩
  rw [hrun]
  unfold StoresKept storesOf at h
  unfold decode
  cases hf : (family (op >>> 12).toNat).find? (·.hits op) with
  | none => exact hs'
  | some e =>
    rw [hf] at h
    have hb : e.act.Bounds op (storesAt e.value op) :=
      bounds_of_mem e (mem_entries (List.mem_of_find?_eq_some hf))
    dsimp only
    cases hact : e.act with
    | plain f | control f =>
      rw [hact] at hb
      exact hb c _ hs' h
    | halt => exact hs'

theorem canonical_overflowAcc {s : Cpu} (isB : Bool) (before : Acc) (hs : Canonical s) :
    Canonical (overflowAcc isB before s) := by
  simp only [overflowAcc]
  split
  · exact hs
  · split
    · split
      · exact ⟨hs.a, canon_sat32 _⟩
      · exact ⟨canon_sat32 _, hs.b⟩
    · exact ⟨hs.a, hs.b⟩

theorem canonical_overflowPass {s : Cpu} (before : Cpu) (hs : Canonical s) :
    Canonical (overflowPass before s) := by
  unfold overflowPass
  split
  · exact hs
  · exact canonical_overflowAcc true _ (canonical_overflowAcc false _ hs)

/-! ### Interrupt entries -/

/-- The frame an entry pushes. Only the level check leaves out an XPC of zero. -/
def Taken.frame (bus : Bus) (t : Taken) : List (Word × Word) :=
  frameWords (t.pre.ctx bus) t.pre.toCpu t.pre.resumePc (t.path != .level)

/-- The frame does not go to a guard byte with the sign set. -/
def Taken.FrameKept (bus : Bus) (t : Taken) : Prop := ∀ w ∈ t.frame bus, GuardKept w

instance (bus : Bus) (t : Taken) : Decidable (t.FrameKept bus) :=
  List.decidableBAll GuardKept _

theorem canonical_enter {c : Ctx} {s : State} {ret : Word} {always : Bool} (vec bit : Nat)
    (hs : Canonical s.toCpu) (hw : ∀ w ∈ frameWords c s.toCpu ret always, GuardKept w) :
    Canonical (enter c s vec bit ret always).toCpu := by
  have hframe : Canonical (pushFrame c { s.toCpu with ifr := clearBit s.ifr bit } ret always) :=
    canonical_pushFrame ⟨hs.a, hs.b⟩ hw
  exact ⟨hframe.a, hframe.b⟩

variable {g : Gates} {bus : Bus} {s : State}

theorem resumePc_of_running (h : s.idle = false) : s.resumePc = s.pc16 := by
  unfold resumePc pc16
  rw [h]
  rfl

section

variable {vec bit : Nat} {execPc : Word} {ds : BitVec 8} {was : Bool} {n : Nat} (hs : Canonical s.toCpu)

include hs

theorem canonical_interruptEx (h : ∀ t ∈ (interruptEx bus s vec bit).2, t.FrameKept bus) :
    Canonical (interruptEx bus s vec bit).1.toCpu := by
  cases ht : (interruptEx bus s vec bit).2 with
  | none =>
    unfold interruptEx at ht ⊢
    dsimp only at ht ⊢
    split_ifs at ht ⊢ <;> exact ⟨hs.a, hs.b⟩
  | some t =>
    obtain ⟨heq, hpath, -, idle, henter⟩ := interruptEx_eq_some ht
    have hkept := h t ht
    rw [heq] at hkept
    unfold Taken.FrameKept Taken.frame at hkept
    rw [henter]
    refine canonical_enter vec bit ⟨hs.a, hs.b⟩ ?_
    rcases hpath with hpath | hpath <;> rw [hpath] at hkept <;> exact hkept

theorem canonical_replay (hidle : s.idle = false) (h : ∀ t ∈ (replay bus s).2, t.FrameKept bus) :
    Canonical (replay bus s).1.toCpu := by
  cases ht : (replay bus s).2 with
  | none =>
    rw [replay_eq_none ht]
    exact hs
  | some t =>
    obtain ⟨-, heq, hst⟩ := replay_eq_some ht
    have hkept := h t ht
    unfold Taken.FrameKept Taken.frame at hkept
    rw [heq] at hkept
    rw [hst]
    rw [resumePc_of_running hidle] at hkept
    exact canonical_enter _ _ hs hkept

theorem canonical_levelCheck (hidle : s.idle = false)
    (h : ∀ t ∈ (levelCheck g bus s).2, t.FrameKept bus) :
    Canonical (levelCheck g bus s).1.toCpu := by
  cases ht : (levelCheck g bus s).2 with
  | none =>
    obtain ⟨ifr, heq⟩ := levelCheck_eq_none ht
    rw [heq]
    exact ⟨hs.a, hs.b⟩
  | some t =>
    obtain ⟨hpath, -, hpre, hst⟩ := levelCheck_eq_some ht
    obtain ⟨ifr, hifr⟩ := dmaLevel_eq bus s
    have hkept := h t ht
    unfold Taken.FrameKept Taken.frame at hkept
    rw [hpath, resumePc_of_running (by rw [hpre, hifr]; exact hidle)] at hkept
    rw [hst]
    refine canonical_enter _ _ ?_ hkept
    rw [hpre, hifr]
    exact ⟨hs.a, hs.b⟩

theorem canonical_timer (h : ∀ t ∈ (timer bus s).2, t.FrameKept bus) :
    Canonical (timer bus s).1.toCpu := by
  cases hdue : timerDue s with
  | true =>
    rw [timer_of_due bus hdue] at h ⊢
    exact canonical_interruptEx ⟨hs.a, hs.b⟩ h
  | false =>
    obtain ⟨data, psc, heq⟩ := timer_of_not_due bus hdue
    rw [heq]
    exact ⟨hs.a, hs.b⟩

/-! ### One event -/

theorem canonical_prepare : Canonical (prepare s).toCpu := by
  obtain ⟨data, last, prev, fiable, heq⟩ := prepare_eq s
  rw [heq]
  exact ⟨hs.a, hs.b⟩

theorem canonical_complete (h : ∀ t ∈ (complete bus execPc ds n s).2, t.FrameKept bus) :
    Canonical (complete bus execPc ds n s).1.toCpu := by
  have htimer : Canonical (timer bus (advance n s)).1.toCpu := canonical_timer hs h
  obtain ⟨cycles, insns, heq⟩ := complete_eq_afterSlots bus execPc ds n s
  rw [heq]
  -- the slots and the block repeat leave the accumulators alone
  generalize (timer bus (advance n s)).1 = u at htimer
  obtain ⟨brc, st1, act, pc, hblock⟩ :=
    blockRepeat_eq execPc (u.pc.setWidth 16) n { u with toSeq := countSlots ds n u.toSeq }
  unfold afterSlots
  rw [hblock]
  exact ⟨htimer.a, htimer.b⟩

theorem canonical_repeatOrComplete
    (h : ∀ t ∈ (repeatOrComplete bus execPc ds was n s).2, t.FrameKept bus) :
    Canonical (repeatOrComplete bus execPc ds was n s).1.toCpu := by
  rcases repeatOrComplete_eq bus execPc ds was n s with ⟨count, cycles, heq⟩ | ⟨rpt, heq⟩
  · rw [heq]
    exact hs
  · rw [heq] at h ⊢
    exact canonical_complete hs h

/-- The instruction of a turn, or the interrupt the level check takes in its place. -/
theorem canonical_execSettled (hidle : s.idle = false)
    (hlevel : ∀ t ∈ (levelCheck g bus s).2, t.FrameKept bus)
    (hop : ∀ u, levelCheck g bus s = (u, none) → StoresKept (opAt u) (u.ctx bus) u.toCpu) :
    Canonical (execSettled g bus s).1.toCpu := by
  have hlc := canonical_levelCheck hs hidle hlevel
  cases ht : (levelCheck g bus s).2 with
  | none =>
    have heq : levelCheck g bus s = ((levelCheck g bus s).1, none) := Prod.ext rfl ht
    rw [toCpu_execSettled heq]
    exact canonical_overflowPass _ (canonical_execOp hlc (hop _ heq))
  | some t =>
    simp only [execSettled, execOne, ht]
    exact canonical_overflowPass _ hlc

end

/-- The entries among the observations. -/
def entered (os : List Obs) : List Taken := os.filterMap fun o => match o with
  | .taken t => some t
  | .exec _ _ => none

theorem mem_entered {t : Taken} {os : List Obs} : t ∈ entered os ↔ Obs.taken t ∈ os := by
  unfold entered
  rw [List.mem_filterMap]
  constructor
  · rintro ⟨o, ho, heq⟩
    cases o with
    | taken t' =>
      cases heq
      exact ho
    | exec pc op => cases heq
  · intro ht
    exact ⟨_, ht, rfl⟩

/-- The words the event stores leave the accumulators extended: the stores of the turn's
instruction, the frames of the interrupts entered, the guard bytes of a snapshot. -/
def GuardSafe (g : Gates) (s : State) : Event → Prop
  | .pass bus => (∀ t ∈ entered (pass g bus s).2, t.FrameKept bus) ∧
      ∀ u ∈ decoding g bus s, StoresKept (opAt u) (u.ctx bus) u.toCpu
  | .request bus vec bit => ∀ t ∈ (interruptEx bus s vec bit).2, t.FrameKept bus
  | .wake => True
  | .poke _ _ => True
  | .reset none => True
  | .reset (some r) => bitSet (r 0x0A) 7 = false ∧ bitSet (r 0x0D) 7 = false

instance (g : Gates) (s : State) : (e : Event) → Decidable (GuardSafe g s e)
  | .pass _ => inferInstanceAs (Decidable (_ ∧ _))
  | .request _ _ _ => inferInstanceAs (Decidable (∀ t ∈ _, _))
  | .wake => isTrue trivial
  | .poke _ _ => isTrue trivial
  | .reset none => isTrue trivial
  | .reset (some _) => inferInstanceAs (Decidable (_ ∧ _))

theorem canonical_pass (hs : Canonical s.toCpu) (h : GuardSafe g s (.pass bus)) :
    Canonical (pass g bus s).1.toCpu := by
  obtain ⟨hframes, hstores⟩ := h
  replace hframes : ∀ t, Obs.taken t ∈ (pass g bus s).2 → t.FrameKept bus :=
    fun t ht => hframes t (mem_entered.mpr ht)
  by_cases hexec : s.executes
  · have hidle : s.idle = false := (executes_iff.mp hexec).2.1
    have hpass : pass g bus s = _ := pass_of_executes hexec
    rw [hpass] at hframes ⊢
    dsimp only [instruction] at hframes ⊢
    have hreplay : Canonical (replay bus s).1.toCpu := by
      refine canonical_replay hs hidle fun t ht => hframes t ?_
      rw [ht]
      exact List.mem_append_left _ (List.mem_singleton.mpr rfl)
    have hridle : (prepare (replay bus s).1).idle = false := by
      rw [toSeq_prepare, idle_replay, hidle]
    have hsettled : Canonical (execSettled g bus (prepare (replay bus s).1)).1.toCpu := by
      refine canonical_execSettled (canonical_prepare hreplay) hridle ?_ ?_
      · intro t ht
        refine hframes t (List.mem_append_right _ (List.mem_cons.mpr (.inl ?_)))
        replace ht : (levelCheck g bus (prepare (replay bus s).1)).2 = some t := ht
        simp only [execSettled, execOne, ht]
      · intro u hu
        refine hstores u ?_
        unfold decoding
        rw [hexec, hu]
        rfl
    refine canonical_repeatOrComplete hsettled fun t ht => hframes t ?_
    refine List.mem_append_right _ (List.mem_cons.mpr (.inr ?_))
    rw [ht]
    exact List.mem_singleton.mpr rfl
  · -- nothing runs
    unfold pass
    split
    · exact hs
    · split
      · exact ⟨hs.a, hs.b⟩
      · rename_i hrun hff
        simp only [Bool.or_eq_true, Bool.not_eq_true', not_or, Bool.not_eq_false,
          Bool.not_eq_true] at hrun
        exact absurd (executes_iff.mpr ⟨hrun.1, hrun.2, by simpa using hff⟩) hexec

theorem canon_accOf {guard high low : Word} (h : bitSet guard 7 = false) :
    Canon (accOf guard high low) := by
  have hguard : (guard &&& 0xFF).setWidth 64 <<< 32 = putGuard 0#64 guard := by
    unfold putGuard
    rw [BitVec.zero_and, BitVec.zero_or]
  have hg : Canon ((guard &&& 0xFF).setWidth 64 <<< 32) := by
    rw [hguard]
    exact canon_putGuard.mpr h
  exact (hg.or (canon_shiftLeft_word high)).or (canon_setWidth (by decide) low)

theorem canonical_reset {regs : Option Snapshot} (h : GuardSafe g s (.reset regs)) :
    Canonical (reset regs s).toCpu := by
  cases regs with
  | none => exact ⟨canon_zero, canon_zero⟩
  | some r => exact ⟨canon_accOf h.1, canon_accOf h.2⟩

theorem canonical_step {e : Event} (hs : Canonical s.toCpu) (h : GuardSafe g s e) :
    Canonical (step g s e).1.toCpu := by
  cases e with
  | pass bus => exact canonical_pass hs h
  | request bus vec bit => exact canonical_interruptEx hs h
  | wake => exact hs
  | poke addr v =>
    simp only [step]
    split <;> exact ⟨hs.a, hs.b⟩
  | reset regs => exact canonical_reset h

/-! ### Whole runs -/

/-- From extended accumulators, a run that stores no guard byte with its sign set has both
accumulators extended in every state it reaches. -/
theorem canonical_of_run {es : List Event} (hs : Canonical s.toCpu)
    (h : (core g).Along (GuardSafe g) s es) :
    ∀ es', es' <+: es → Canonical ((core g).final s es').toCpu := by
  rintro es' ⟨rest, rfl⟩
  have hstep : ∀ s e, Canonical s.toCpu → GuardSafe g s e → Canonical ((core g).step s e).1.toCpu :=
    fun s e => canonical_step
  exact Machine.invariant (I := fun s : State => Canonical s.toCpu) hstep hs h.of_append.1

/-- STM #0x80, AG in the first turn after reset. -/
theorem stm_ag_not_extended :
    let s := (core ⟨false⟩).final (boot [0x770A, 0x0080]) [.pass Bus.quiet]
    s.a = 0x8000000000 ∧ sext40 s.a = 0xFFFFFF8000000000 := by
  decide +kernel

/-- STM #0x12, AG and NEG A. -/
theorem canonical_of_run_stm :
    Canonical ((core ⟨false⟩).final (boot [0x770A, 0x0012, 0xF484])
      (List.replicate 2 (.pass Bus.quiet))).toCpu :=
  have hsafe : (core ⟨false⟩).Along (GuardSafe ⟨false⟩) (boot [0x770A, 0x0012, 0xF484])
      (List.replicate 2 (.pass Bus.quiet)) := ⟨by decide +kernel, by decide +kernel, trivial⟩
  have hboot : Canonical (boot [0x770A, 0x0012, 0xF484]).toCpu := ⟨rfl, rfl⟩
  canonical_of_run hboot hsafe _ List.prefix_rfl

end Qosmo.C54x
