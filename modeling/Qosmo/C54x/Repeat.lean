import Qosmo.C54x.Steps

/-!
# Qosmo.C54x.Repeat

The single-instruction repeat: RPT #k runs the next instruction k + 1 times.

RPT leaves a count behind and `c54x_run` counts it down, one turn at a time. A repeat
is one of the states of the core that an interrupt must wait for, but none of the
paths into an interrupt looks at it: an interrupt taken in the middle of a repeat
hands the rest of the count to the first instruction of its service routine
(`repeat_interrupted`). Along the runs in which no enabled request meets a running
repeat (`RepeatSafe`), the count is right (`repeat_executes`).
-/

namespace Qosmo.C54x

open Machine State

variable {g : Gates} {bus : Bus} {s : State} {t : Taken} {op k : Word} {pc : BitVec 32}

/-- The number of turns in a schedule. -/
def passes (es : List Event) : Nat := es.countP fun e => match e with
  | .pass _ => true
  | _ => false

/-! ### Nothing behind the instruction touches the repeat -/

@[simp] theorem rptActive_interruptEx (bus : Bus) (s : State) (vec bit : Nat) :
    (interruptEx bus s vec bit).1.rptActive = s.rptActive := by
  simp only [interruptEx]
  split
  · rfl
  · split <;> split <;> rfl

@[simp] theorem rptActive_timer (bus : Bus) (s : State) :
    (timer bus s).1.rptActive = s.rptActive := by
  cases hdue : timerDue s with
  | true =>
    rw [timer_of_due bus hdue, rptActive_interruptEx]
    rfl
  | false =>
    obtain ⟨data, psc, heq⟩ := timer_of_not_due bus hdue
    rw [heq]

theorem rptActive_complete (bus : Bus) (execPc : Word) (ds : BitVec 8) (n : Nat) (s : State) :
    (complete bus execPc ds n s).1.rptActive = s.rptActive := by
  simp only [complete]
  obtain ⟨r, hr⟩ : ∃ r, (timer bus (advance n s)).1 = r := ⟨_, rfl⟩
  have htimer : r.rptActive = s.rptActive := hr ▸ rptActive_timer bus (advance n s)
  obtain ⟨slots, pc, hslots⟩ := countSlots_eq ds n r.toSeq
  obtain ⟨brc, st1, act, pc', hblock⟩ := blockRepeat_eq execPc (r.pc.setWidth 16) n
    { r with toSeq := countSlots ds n r.toSeq }
  rw [hr, hblock, hslots]
  exact htimer

/-- The timer's request is made with the repeat as the instruction left it. -/
theorem rptActive_of_complete {execPc : Word} {ds : BitVec 8} {n : Nat}
    (h : (complete bus execPc ds n s).2 = some t) : t.pre.rptActive = s.rptActive := by
  have hpre := congrArg Taken.pre (interruptEx_eq_some (timer_eq_some h).2).1
  rw [hpre]
  rfl

/-! ### One turn of a repeat -/

/-- An instruction of one or two words that does nothing to the flow of control: what
RPT is meant to be followed by. -/
def Repeatable (op : Word) : Prop :=
  ∀ c s, ∃ n, (n = 1 ∨ n = 2) ∧ (execOp op c s).1 = .flow (.next n)

/-- An instruction that does nothing to the flow of control, of any length. -/
def FallsThrough (op : Word) : Prop := ∀ c s, ∃ n, (execOp op c s).1 = .flow (.next n)

theorem fallsThrough_of_plain {f : Word → Exec Nat} (h : decode op = .plain f) :
    FallsThrough op := by
  intro c s
  have hrun : execOp op c s = (decode op).run op c { s with lkUsed := false } := rfl
  rw [hrun, h]
  exact ⟨_, rfl⟩

theorem Repeatable.fallsThrough (h : Repeatable op) : FallsThrough op := by
  intro c s
  obtain ⟨n, -, hout⟩ := h c s
  exact ⟨n, hout⟩

/-- The instruction at `pc` is being repeated, with `k` repetitions to go after the
next one. -/
structure Repeating (pc : BitVec 32) (k : Word) (s : State) : Prop where
  active : s.rptActive = true
  count : s.rptCount = k
  pc_eq : s.pc = pc
  running : s.running = true
  idle : s.idle = false

theorem Repeating.congr {u : State} (h : Repeating pc k s) (hseq : u.toSeq = s.toSeq) :
    Repeating pc k u where
  active := (congrArg Seq.rptActive hseq).trans h.active
  count := (congrArg Seq.rptCount hseq).trans h.count
  pc_eq := (congrArg Seq.pc hseq).trans h.pc_eq
  running := (congrArg Seq.running hseq).trans h.running
  idle := (congrArg Seq.idle hseq).trans h.idle

/-- While a repeat is running: its instruction stays in place and is not fast-forwarded,
no turn finds an enabled request, no request is enabled when it arrives, and the core is
not reset. -/
def RepeatSafe (g : Gates) (op : Word) (s : State) : Event → Prop
  | .pass bus => s.rptActive = true → opAt s = op ∧ idleFastForward s = false ∧ Quiet g bus s
  | .request _ _ bit => s.rptActive = true →
      s.intm = true ∨ bitSet s.imr bit = false ∨ s.delaySlots ≠ 0
  | .reset _ => s.rptActive = false
  | _ => True

instance (g : Gates) (op : Word) (s : State) : (e : Event) → Decidable (RepeatSafe g op s e)
  | .pass _ => inferInstanceAs (Decidable (_ → _))
  | .request _ _ _ => inferInstanceAs (Decidable (_ → _))
  | .wake => inferInstanceAs (Decidable True)
  | .poke _ _ => inferInstanceAs (Decidable True)
  | .reset _ => inferInstanceAs (Decidable (_ = _))

/-- The turn of a repeat executes its instruction and nothing else, up to the place
where the repeat is counted. -/
theorem pass_repeating (h : Repeating pc k s) (hop : FallsThrough op)
    (hsafe : RepeatSafe g op s (.pass bus)) :
    ∃ (u : State) (execPc : Word) (ds : BitVec 8) (n : Nat), u.toSeq = s.toSeq ∧
      pass g bus s =
        ((repeatOrComplete bus execPc ds true n u).1,
         .exec pc op :: ((repeatOrComplete bus execPc ds true n u).2.map Obs.taken).toList) := by
  obtain ⟨hopAt, hff, hquiet⟩ := hsafe h.active
  have hexec : s.executes := by simp [executes, h.running, h.idle, hff]
  obtain ⟨hseq, hrest⟩ := execSettled_of_quiet hquiet
  obtain ⟨n, hout⟩ := hop (ctx bus (levelCheck g bus (prepare s)).1)
    (levelCheck g bus (prepare s)).1.toCpu
  have hnext : outcomeAt g bus s = .flow (.next n) := by
    unfold outcomeAt
    rw [hopAt]
    exact hout
  rw [hnext] at hseq hrest
  rw [hopAt, h.pc_eq] at hrest
  have hrpt : (prepare s).rptActive := (prepare_seq s).2.2.trans h.active
  refine ⟨(execSettled g bus (prepare s)).1, (prepare s).pc.setWidth 16, (prepare s).delaySlots, n,
    hseq, ?_⟩
  rw [pass_of_quiet hexec hquiet]
  simp only [instruction, hrest, hrpt]
  rfl

theorem repeatOrComplete_more {execPc : Word} {ds : BitVec 8} {n : Nat} (hact : s.rptActive)
    (hidle : s.idle = false) (hne : s.rptCount ≠ 0) : repeatOrComplete bus execPc ds true n s =
      ({ s with rptCount := s.rptCount - 1, cycles := s.cycles + 1 }, none) := by
  unfold repeatOrComplete
  rw [if_pos (by simp [hact, hidle]), if_neg (by simp), if_pos hne]

theorem pass_repeating_more (h : Repeating pc k s) (hop : FallsThrough op) (hk : k ≠ 0)
    (hsafe : RepeatSafe g op s (.pass bus)) :
    Repeating pc (k - 1) (pass g bus s).1 ∧ (pass g bus s).2 = [.exec pc op] := by
  obtain ⟨u, execPc, ds, n, hu, hpass⟩ := pass_repeating h hop hsafe
  obtain ⟨hact, hcount, hpc, hrun, hidle⟩ := h.congr hu
  rw [hpass, repeatOrComplete_more hact hidle (by rwa [hcount])]
  exact ⟨⟨hact, congrArg (· - 1) hcount, hpc, hrun, hidle⟩, rfl⟩

theorem pass_repeating_last (h : Repeating pc 0 s) (hop : FallsThrough op)
    (hsafe : RepeatSafe g op s (.pass bus)) :
    (pass g bus s).1.rptActive = false ∧ executions (pass g bus s).2 = [(pc, op)] ∧
      ∀ t, Obs.taken t ∈ (pass g bus s).2 → t.pre.rptActive = false := by
  obtain ⟨u, execPc, ds, n, hu, hpass⟩ := pass_repeating h hop hsafe
  obtain ⟨hact, hcount, -, -, hidle⟩ := h.congr hu
  have hrep : repeatOrComplete bus execPc ds true n u =
      complete bus execPc ds n { u with rptActive := false } := by
    simp [repeatOrComplete, hact, hidle, hcount]
  rw [hpass, hrep]
  refine ⟨rptActive_complete bus execPc ds n _, by simp, ?_⟩
  intro t ht
  simp only [List.mem_cons, reduceCtorEq, false_or, Option.mem_toList, Option.map_eq_some_iff,
    Obs.taken.injEq, exists_eq_right] at ht
  exact rptActive_of_complete ht

/-! ### Between the turns -/

variable {e : Event}

section

variable (he : ∀ bus, e ≠ .pass bus)

include he

theorem executions_of_not_pass : executions (step g s e).2 = [] := by
  cases e with
  | pass bus => exact absurd rfl (he bus)
  | request bus vec bit => simp [step]
  | wake | poke addr v | reset regs => rfl

/-- A request that meets a running repeat under the condition is only latched; nothing
else between two turns touches the repeat. -/
theorem step_repeating (h : Repeating pc k s) (hsafe : RepeatSafe g op s e) :
    Repeating pc k (step g s e).1 ∧ (step g s e).2 = [] := by
  cases e with
  | pass bus => exact absurd rfl (he bus)
  | request bus vec bit =>
    have hguard : ¬ (!s.intm && bitSet s.imr bit && s.delaySlots == 0) := by
      simp only [Bool.and_eq_true, Bool.not_eq_true', beq_iff_eq]
      rintro ⟨⟨hintm, himr⟩, hslots⟩
      rcases hsafe h.active with hi | hm | hd
      · exact absurd hi (by simp [hintm])
      · exact absurd hm (by simp [himr])
      · exact hd hslots
    simp only [step, interruptEx]
    split
    · exact ⟨h, rfl⟩
    · rw [if_neg (by simp [h.idle])]
      exact ⟨⟨h.active, h.count, h.pc_eq, h.running, h.idle⟩, rfl⟩
  | wake => exact ⟨⟨h.active, h.count, h.pc_eq, h.running, rfl⟩, rfl⟩
  | poke addr v => exact ⟨⟨h.active, h.count, h.pc_eq, h.running, h.idle⟩, rfl⟩
  | reset regs =>
    have hoff : s.rptActive = false := hsafe
    rw [h.active] at hoff
    cases hoff

/-- Between two turns no repeat is started, and interrupts are entered without one. -/
theorem step_not_repeating (h : s.rptActive = false) :
    (step g s e).1.rptActive = false ∧
      ∀ t, Obs.taken t ∈ (step g s e).2 → t.pre.rptActive = false := by
  cases e with
  | pass bus => exact absurd rfl (he bus)
  | request bus vec bit =>
    refine ⟨(rptActive_interruptEx bus s vec bit).trans h, ?_⟩
    intro t ht
    simp only [step, Option.mem_toList, Option.map_eq_some_iff, Obs.taken.injEq,
      exists_eq_right] at ht
    rw [congrArg Taken.pre (interruptEx_eq_some ht).1, h]
  | wake | poke addr v => exact ⟨h, fun t ht => by simp [step] at ht⟩
  | reset regs => exact ⟨by simp [step, reset], fun t ht => by simp [step] at ht⟩

theorem passes_cons_of_not_pass (es : List Event) : passes (e :: es) = passes es := by
  cases e with
  | pass bus => exact absurd rfl (he bus)
  | _ => simp [passes]

end

/-! ### The whole repeat -/

theorem run_not_repeating {es : List Event} (hn : passes es = 0) (h : s.rptActive = false) :
    executions ((core g).trace s es) = [] ∧
    (∀ t, Obs.taken t ∈ (core g).trace s es → t.pre.rptActive = false) ∧
    ((core g).final s es).rptActive = false := by
  induction es generalizing s with
  | nil => exact ⟨rfl, by simp, h⟩
  | cons e es ih =>
    have he : ∀ bus, e ≠ .pass bus := by
      rintro bus rfl
      simp [passes] at hn
    have hes : passes es = 0 := (passes_cons_of_not_pass he es).symm.trans hn
    obtain ⟨hoff, htaken⟩ := step_not_repeating (g := g) he h
    obtain ⟨hex, htk, hfin⟩ := ih hes hoff
    refine ⟨?_, ?_, hfin⟩
    · rw [trace_cons, executions_append, core_step, hex, executions_of_not_pass he]
      rfl
    · intro t ht
      rw [trace_cons, List.mem_append] at ht
      rcases ht with ht | ht
      · exact htaken t ht
      · exact htk t ht

/-- From any state of a repeat, the turns that are left execute its instruction, end
the repeat, and enter nothing before its end. -/
theorem run_repeating {es : List Event} (hop : FallsThrough op) (h : Repeating pc k s)
    (hsafe : (core g).Along (RepeatSafe g op) s es) (hn : passes es = k.toNat + 1) :
    executions ((core g).trace s es) = List.replicate (k.toNat + 1) (pc, op) ∧
    (∀ t, Obs.taken t ∈ (core g).trace s es → t.pre.rptActive = false) ∧
    ((core g).final s es).rptActive = false := by
  induction es generalizing s k with
  | nil => simp [passes] at hn
  | cons e es ih =>
    obtain ⟨hhead, htail⟩ := hsafe
    by_cases he : ∃ bus, e = .pass bus
    · obtain ⟨bus, rfl⟩ := he
      have hes : passes es = k.toNat := by simpa [passes] using hn
      by_cases hk : k = 0
      · -- the last repetition; what follows has no turn
        subst hk
        obtain ⟨hoff, hex, htk⟩ := pass_repeating_last h hop hhead
        obtain ⟨hex', htk', hfin⟩ := run_not_repeating (g := g) hes hoff
        refine ⟨?_, ?_, hfin⟩
        · rw [trace_cons, executions_append]
          exact (congrArg₂ (· ++ ·) hex hex').trans rfl
        · intro t ht
          rw [trace_cons, List.mem_append] at ht
          exact ht.elim (htk t) (htk' t)
      · obtain ⟨hrep, hobs⟩ := pass_repeating_more h hop hk hhead
        have hpred : (k - 1).toNat + 1 = k.toNat := by bv_omega
        obtain ⟨hex, htk, hfin⟩ := ih hrep htail (by rw [hpred]; exact hes)
        refine ⟨?_, ?_, hfin⟩
        · rw [trace_cons, core_step, step, hobs, executions_append, hex, hpred]
          rfl
        · intro t ht
          rw [trace_cons, core_step, step, hobs, List.mem_append] at ht
          rcases ht with ht | ht
          · simp at ht
          · exact htk t ht
    · push Not at he
      obtain ⟨hrep, hobs⟩ := step_repeating he h hhead
      have hes : passes es = k.toNat + 1 := (passes_cons_of_not_pass he es).symm.trans hn
      obtain ⟨hex, htk, hfin⟩ := ih hrep htail hes
      rw [trace_cons, core_step, hobs]
      exact ⟨hex, htk, hfin⟩

/-! ### From the RPT on -/

/-- The turn executes an RPT, in any of its forms, with count `k`. -/
structure ArmsRepeat (g : Gates) (bus : Bus) (s : State) (k : Word) : Prop where
  executes : s.executes = true
  inactive : s.rptActive = false
  quiet : Quiet g bus s
  rpt : ∃ n, outcomeAt g bus s = .flow (.rpt k n)

/-- RPT starts a repeat of the instruction behind it; its own turn counts nothing. -/
theorem ArmsRepeat.armed (h : ArmsRepeat g bus s k) :
    (pass g bus s).1.toCpu = (execSettled g bus (prepare s)).1.toCpu ∧
      Repeating (pass g bus s).1.pc k (pass g bus s).1 := by
  obtain ⟨n, hout⟩ := h.rpt
  obtain ⟨hseq, hrest⟩ := execSettled_of_quiet h.quiet
  rw [hout] at hseq hrest
  obtain ⟨hrun, hidle, -⟩ := executes_iff.mp h.executes
  have hwas : (prepare s).rptActive = false := (prepare_seq s).2.2.trans h.inactive
  generalize hu : (execSettled g bus (prepare s)).1 = u at hseq
  have hact : u.rptActive := congrArg Seq.rptActive hseq
  have hidle : u.idle = false := (congrArg Seq.idle hseq).trans hidle
  have hpass : (pass g bus s).1 = { u with cycles := u.cycles + 1 } := by
    rw [pass_of_quiet h.executes h.quiet]
    simp only [instruction, hu, hrest, hwas]
    simp [repeatOrComplete, hact, hidle]
  rw [hpass]
  exact ⟨rfl, hact, congrArg Seq.rptCount hseq, rfl, (congrArg Seq.running hseq).trans hrun, hidle⟩

/-- **RPT #k executes the next instruction k + 1 times**, in any run in which no enabled
request meets the repeat: the turns that follow the RPT execute that instruction and
nothing else, the repeat is over after k + 1 of them, and no interrupt is entered before. -/
theorem repeat_executes (g : Gates) (bus : Bus) (s : State) (k op : Word) (es : List Event)
    (harm : ArmsRepeat g bus s k) (hop : Repeatable op)
    (hsafe : (core g).Along (RepeatSafe g op) (pass g bus s).1 es)
    (hn : passes es = k.toNat + 1) :
    executions ((core g).trace (pass g bus s).1 es) =
      List.replicate (k.toNat + 1) ((pass g bus s).1.pc, op) ∧
    (∀ t, Obs.taken t ∈ (core g).trace (pass g bus s).1 es → t.pre.rptActive = false) ∧
    ((core g).final (pass g bus s).1 es).rptActive = false :=
  run_repeating hop.fallsThrough harm.armed.2 hsafe hn

/-- RPT #2; ADD A,B. -/
def repeatProgram : List Word := [0xEC02, 0xF500]

/-- A request masked by INTM arrives during the repeat. -/
theorem masked_repeat :
    executions ((core ⟨false⟩).trace (pass ⟨false⟩ .quiet (boot repeatProgram)).1
      [.pass .quiet, .request .quiet 28 12, .pass .quiet, .pass .quiet]) =
    List.replicate 3 ((pass ⟨false⟩ .quiet (boot repeatProgram)).1.pc, 0xF500) :=
  (repeat_executes ⟨false⟩ .quiet (boot repeatProgram) 2 0xF500 _
    ⟨by decide +kernel, by decide +kernel, by decide +kernel, 1, by decide +kernel⟩
    (fun c s => ⟨1, Or.inl rfl, rfl⟩) (by decide +kernel) rfl).1

/-- RSBX INTM in front, and the request is entered after the first of the three
repetitions: the two that are left are given to the instruction at the vector. -/
theorem repeat_interrupted :
    executions ((core ⟨false⟩).trace (boot (0xF6BB :: repeatProgram))
      [.pass .quiet, .pass .quiet, .pass .quiet, .request .quiet 28 12, .pass .quiet, .pass .quiet]) =
    [(0xFF80, 0xF6BB), (0xFF81, 0xEC02), (0xFF82, 0xF500), (0xFFF0, 0xF495), (0xFFF0, 0xF495)] := by
  decide +kernel

end Qosmo.C54x
