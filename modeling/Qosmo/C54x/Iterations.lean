import Qosmo.C54x.Repeat
import Qosmo.C54x.Slots

/-!
# Qosmo.C54x.Iterations

The executions of a repeated instruction, one after the other.

`repeat_executes` counts them. Some instructions behave differently under a repeat: they take their
address from a pointer that the execution before has left in the core. Here the executions are seen
with the context and the core they find (`instances`), and `run_iterates` says that each one finds
what the one before it left, up to what can happen between two turns. RPT, in each of its forms,
tells the first one that it is the first (`rptFresh_of_rpt`).
-/

namespace Qosmo.C54x

open State

variable {g : Gates} {bus : Bus} {s u : State} {op k : Word} {pc : BitVec 32} {β : Type}

/-! ### RPT marks the repeat as fresh -/

/-- A repeat that is armed is marked as fresh. -/
def MarksRepeat (fl : Flow) (s : Cpu) : Prop := ∀ k n, fl = .rpt k n → s.rptFresh = true

/-- The code behind a test of the decoder does so. -/
def Action.MarksRepeat (op : Word) : Action → Prop
  | .control f => Prog.Ends C54x.MarksRepeat (f op)
  | _ => True

theorem ends_armRpt (count : Word) (n : Nat) : Prog.Ends MarksRepeat (armRpt count n) :=
  fun _ _ _ _ _ => rfl

/-- Only RPT and RPTZ arm a repeat. -/
theorem marksRepeat_of_mem : ∀ e ∈ entries, e.act.MarksRepeat op := by
  simp only [entries, tableF, tableF4, tableE, table67, table4, table23, table89, tableAB, plain,
    control, List.forall_mem_append, List.forall_mem_cons, implies_true, true_and, and_true,
    List.not_mem_nil, false_imp_iff, and_assoc, Action.MarksRepeat]
  repeat' apply And.intro
  all_goals
    simp only [execBacc, execFbacc, execRetf, execRete, reteFrom, execFret, execTrap, execB, execCall,
      execRptb, execRptLk, execRptz, execBcTc, execFb, execBanzAr, execBcAcc, execBanzSmem, execRptK8,
      execIntr, execReset, execCc, execRc, execRptSmem, execBcEd, execBanz, execCalld, execBd,
      execReted, execBaccd, execFretd, execFbaccd, execBcd, execCcd, execRcd, execBanzd, delayTo,
      fallThrough]
    repeat' first
      | (with_reducible apply Prog.ends_bind; intro _)
      | with_reducible apply Prog.ends_ite
      | with_reducible exact ends_armRpt _ _
      | exact Prog.ends_pure fun _ _ _ h => Flow.noConfusion h

theorem rptFresh_of_rpt {c : Ctx} {s : Cpu} {n : Nat} (h : (execOp op c s).1 = .flow (.rpt k n)) :
    (execOp op c s).2.rptFresh := by
  have hmarks : (decode op).MarksRepeat op := by
    rcases decode_cases op with hnop | ⟨e, he, -, hact⟩
    · rw [hnop]
      trivial
    · rw [hact]
      exact marksRepeat_of_mem e he
  obtain ⟨f, hd, hf⟩ := control_of_flow h fun _ => Flow.noConfusion
  rw [hd] at hmarks
  rw [execOp_of_decode hd, run_control]
  exact hmarks c { s with lkUsed := false } k n hf

/-! ### What the executions find -/

/-- What the instruction of a turn finds, if the turn executes one. -/
def found (g : Gates) (bus : Bus) (s : State) : List (Ctx × Cpu) :=
  ((decoding g bus s).map fun u => (u.ctx bus, u.toCpu)).toList

def instances (g : Gates) : Machine State Event (Ctx × Cpu) where
  step s
    | .pass bus => ((pass g bus s).1, found g bus s)
    | e => ((step g s e).1, [])

theorem instances_pass (bus : Bus) (s : State) :
    (instances g).step s (.pass bus) = ((step g s (.pass bus)).1, found g bus s) := rfl

variable {e : Event}

theorem instances_of_not_pass (he : ∀ bus, e ≠ .pass bus) (s : State) :
    (instances g).step s e = ((step g s e).1, []) := by
  cases e with
  | pass bus => exact absurd rfl (he bus)
  | _ => rfl

/-- Successive executions of `op` under a repeat. `f` is what the first one finds of the core `s`,
and each of the others of the core behind the one before it. -/
def Iterates (f : Cpu → β) (op : Word) : Cpu → List (Ctx × Cpu) → Prop
  | _, [] => True
  | s, x :: xs => x.1.rptActive = true ∧ f x.2 = f s ∧ Iterates f op (runOp x.1 op x.2) xs

def afterwards (op : Word) : Cpu → List (Ctx × Cpu) → Cpu
  | s, [] => s
  | _, x :: xs => afterwards op (runOp x.1 op x.2) xs

/-- The event leaves `f` alone, up to the instruction if it is a turn. -/
def Between (f : Cpu → β) (g : Gates) (s : State) : Event → Prop
  | .pass bus => ∀ u, decoding g bus s = some u → f u.toCpu = f s.toCpu
  | e => f (step g s e).1.toCpu = f s.toCpu

/-! ### A turn of a repeat -/

theorem decoding_of_quiet (hexec : s.executes) (h : Quiet g bus s) :
    decoding g bus s = some (levelCheck g bus (prepare s)).1 := by
  unfold decoding
  rw [replay_eq_self bus h.1, hexec, h.levelCheck]
  rfl

/-- What stands between the state a quiet turn begins with and the one it decodes in. -/
theorem of_decoding_quiet (hquiet : Quiet g bus s) (h : decoding g bus s = some u) :
    u.toSeq = s.toSeq ∧ opAt u = opAt s ∧ ∃ ifr, u = { prepare s with ifr := ifr } := by
  obtain ⟨hexec, -⟩ := decoding_eq_some h
  rw [decoding_of_quiet hexec hquiet] at h
  obtain ⟨ifr, hifr⟩ := levelCheck_eq_none hquiet.levelCheck
  have hu : u = { prepare s with ifr := ifr } := (Option.some.inj h).symm.trans hifr
  refine ⟨?_, ?_, ifr, hu⟩
  · rw [hu]
    exact toSeq_prepare s
  · rw [hu]
    exact opAt_prepare s

theorem decoding_repeating (h : Repeating pc k s) (hsafe : RepeatSafe g op s (.pass bus)) :
    ∃ u, decoding g bus s = some u ∧ opAt u = op ∧ u.toSeq = s.toSeq := by
  obtain ⟨hopAt, hff, hquiet⟩ := hsafe h.active
  have hexec : s.executes := by simp [executes, h.running, h.idle, hff]
  have hdec := decoding_of_quiet hexec hquiet
  obtain ⟨hseq, hop, -⟩ := of_decoding_quiet hquiet hdec
  exact ⟨_, hdec, hop.trans hopAt, hseq⟩

/-- While repetitions are left, the turn is the instruction and the count. -/
theorem toCpu_pass_of_repeating {n : Nat} (h : Repeating pc k s) (hk : k ≠ 0)
    (hdec : decoding g bus s = some u) (hseq : u.toSeq = s.toSeq)
    (hout : outcome bus u = .flow (.next n)) : (pass g bus s).1.toCpu = (executed bus u).toCpu := by
  have hvseq : (executed bus u).toSeq = s.toSeq := by
    rw [← hseq]
    show (applyOutcome u.toSeq (outcome bus u)).1 = u.toSeq
    rw [hout]
    rfl
  obtain ⟨hact, hcount, -, -, hidle⟩ := h.congr hvseq
  rw [pass_of_decoding hdec, (h.congr hseq).active,
    repeatOrComplete_more hact hidle (by rwa [hcount])]

/-! ### The whole repeat -/

variable {f : Cpu → β}

variable {v : Cpu} {xs : List (Ctx × Cpu)}

theorem Iterates.congr {v' : Cpu} (h : Iterates f op v xs)
    (hf : f v = f v') : Iterates f op v' xs := by
  cases xs with
  | nil => trivial
  | cons x xs => exact ⟨h.1, h.2.1.trans hf, h.2.2⟩

theorem Iterates.rptActive (h : Iterates f op v xs) {i : Nat}
    {x : Ctx × Cpu} (hx : xs[i]? = some x) : x.1.rptActive := by
  induction xs generalizing v i with
  | nil => cases hx
  | cons y ys ih =>
    cases i with
    | zero =>
      cases hx
      exact h.1
    | succ i => exact ih h.2.2 hx

theorem add_ofNat_succ (b : Word) (i : Nat) :
    b + 1 + BitVec.ofNat 16 i = b + BitVec.ofNat 16 (i + 1) := by
  rw [BitVec.add_assoc, BitVec.add_comm 1, BitVec.ofNat_add]
  rfl

/-- Executions that start where the one before has left the pointer, and leave it one further, start
at consecutive addresses. -/
theorem Iterates.consecutive {start : Ctx × Cpu → Word} {I : Cpu → Prop}
    (hstep : ∀ v x, I v → x.1.rptActive → f x.2 = f v → start x = v.mvpdSrc ∧
      I (runOp x.1 op x.2) ∧ (runOp x.1 op x.2).mvpdSrc = start x + 1) (hit :
    Iterates f op v xs) (hI : I v) {i : Nat}
    {x : Ctx × Cpu} (hx : xs[i]? = some x) : start x = v.mvpdSrc + BitVec.ofNat 16 i := by
  induction xs generalizing v i with
  | nil => cases hx
  | cons y ys ih =>
    obtain ⟨hstart, hI', hnext⟩ := hstep v y hI hit.1 hit.2.1
    cases i with
    | zero =>
      cases hx
      rw [hstart, BitVec.add_zero]
    | succ i => rw [ih hit.2.2 hI' hx, hnext, hstart, add_ofNat_succ]

/-- What every execution carries on holds behind the last one. `Q i` is what is known of the `i`-th
execution from elsewhere. -/
theorem Iterates.invariant {P : Nat → Cpu → Prop} {Q : Nat → Ctx × Cpu → Prop} {n : Nat}
    (hstep : ∀ i v y, i < n → P i v → y.1.rptActive → f y.2 = f v → Q i y →
      P (i + 1) (runOp y.1 op y.2)) {ys : List (Ctx × Cpu)} (hit : Iterates f op v ys) {i :
    Nat} (hP : P i v) (hQ : ∀ j y, ys[j]? = some y → Q (i + j) y) (hlen : i + ys.length ≤ n) :
    P (i + ys.length) (afterwards op v ys) := by
  induction ys generalizing v i with
  | nil => exact hP
  | cons y ys ih =>
    obtain ⟨hact, hsame, hrest⟩ := hit
    rw [List.length_cons] at hlen ⊢
    have hnext := hstep i v y (by omega) hP hact hsame (hQ 0 y rfl)
    have hend := ih hrest hnext (fun j z hz => by
      rw [Nat.add_right_comm, Nat.add_assoc]
      exact hQ (j + 1) z hz) (by omega)
    rw [Nat.add_comm ys.length 1, ← Nat.add_assoc]
    exact hend

variable {es : List Event}

theorem trace_instances_of_no_pass (hn : passes es = 0) : (instances g).trace s es = [] := by
  induction es generalizing s with
  | nil => rfl
  | cons e es ih =>
    have he : ∀ bus, e ≠ .pass bus := by
      rintro bus rfl
      simp [passes] at hn
    have hes : passes es = 0 := (passes_cons_of_not_pass he es).symm.trans hn
    rw [Machine.trace_cons, instances_of_not_pass he, ih hes]
    rfl

/-- **The executions of a repeat.** There are k + 1 of them, and each finds what the one before it
left, as far as the events between two turns leave it alone. -/
theorem run_iterates {C : State → Event → Prop} (hop : FallsThrough op)
    (hf : ∀ pc k s e, Repeating pc k s → RepeatSafe g op s e → C s e → Between f g s e)
    (h : Repeating pc k s) (hsafe : (core g).Along (RepeatSafe g op) s es)
    (hC : (core g).Along C s es) (hn : passes es = k.toNat + 1) :
    ((instances g).trace s es).length = k.toNat + 1 ∧
      Iterates f op s.toCpu ((instances g).trace s es) := by
  induction es generalizing s k with
  | nil => simp [passes] at hn
  | cons e es ih =>
    obtain ⟨hhead, htail⟩ := hsafe
    obtain ⟨hC, hCs⟩ := hC
    by_cases he : ∃ bus, e = .pass bus
    · obtain ⟨bus, rfl⟩ := he
      have hes : passes es = k.toNat := by simpa [passes] using hn
      obtain ⟨u, hdec, hopAt, hseq⟩ := decoding_repeating h hhead
      obtain ⟨n, hout⟩ := hop (u.ctx bus) u.toCpu
      have hfound : found g bus s = [(u.ctx bus, u.toCpu)] := by
        unfold found
        rw [hdec]
        rfl
      have hact : (u.ctx bus).rptActive := (congrArg Seq.rptActive hseq).trans h.active
      have hkept : f u.toCpu = f s.toCpu := hf _ _ _ _ h hhead hC u hdec
      rw [Machine.trace_cons, instances_pass, hfound]
      by_cases hk : k = 0
      · -- the last repetition; what follows has no turn
        subst hk
        rw [trace_instances_of_no_pass hes]
        exact ⟨rfl, hact, hkept, trivial⟩
      · have hrep := (pass_repeating_more h hop hk hhead).1
        have hpred : (k - 1).toNat + 1 = k.toNat := by bv_omega
        have houtcome : outcome bus u = .flow (.next n) := by
          unfold outcome
          rw [hopAt]
          exact hout
        have hcpu : (pass g bus s).1.toCpu = runOp (u.ctx bus) op u.toCpu := by
          rw [toCpu_pass_of_repeating h hk hdec hseq houtcome, ← hopAt]
          rfl
        obtain ⟨hlen, hit⟩ := ih hrep htail hCs (hes.trans hpred.symm)
        refine ⟨?_, hact, hkept, ?_⟩
        · rw [List.length_append, ← hpred]
          exact (congrArg (1 + ·) hlen).trans (Nat.add_comm _ _)
        · rw [← hcpu]
          exact hit
    · push Not at he
      have hkept : f (step g s e).1.toCpu = f s.toCpu := by
        have hb := hf _ _ _ _ h hhead hC
        cases e with
        | pass bus => exact absurd rfl (he bus)
        | _ => exact hb
      have hes : passes es = k.toNat + 1 := (passes_cons_of_not_pass he es).symm.trans hn
      obtain ⟨hlen, hit⟩ := ih (step_repeating he h hhead).1 htail hCs hes
      rw [Machine.trace_cons, instances_of_not_pass he]
      exact ⟨hlen, hit.congr hkept⟩

/-! ### Between two turns -/

theorem latched_of_repeating {vec bit : Nat} (h : Repeating pc k s)
    (hsafe : RepeatSafe g op s (.request bus vec bit)) :
    ∃ ifr, (step g s (.request bus vec bit)).1 = { s with ifr := ifr } := by
  have hobs : ((interruptEx bus s vec bit).2.map Obs.taken).toList = [] :=
    (step_repeating (fun _ h => Event.noConfusion h) h hsafe).2
  have hnone : (interruptEx bus s vec bit).2 = none := by
    cases hi : (interruptEx bus s vec bit).2 with
    | none => rfl
    | some t =>
      rw [hi] at hobs
      cases hobs
  exact interruptEx_eq_none h.idle hnone

/-- What a transfer instruction under a repeat finds of the one before it: whether there was one,
where it got to, and A. -/
def Cpu.pointers (s : Cpu) : Bool × Word × Acc := (s.rptFresh, s.mvpdSrc, s.a)

theorem pointers_eq {s s' : Cpu} (h : s'.pointers = s.pointers) :
    s'.rptFresh = s.rptFresh ∧ s'.mvpdSrc = s.mvpdSrc ∧ s'.a = s.a := by
  simpa only [Cpu.pointers, Prod.mk.injEq] using h

theorem between_pointers (h : Repeating pc k s) (hsafe : RepeatSafe g op s e) :
    Between Cpu.pointers g s e := by
  cases e with
  | pass bus =>
    intro u hdec
    obtain ⟨-, -, ifr, hu⟩ := of_decoding_quiet (hsafe h.active).2.2 hdec
    obtain ⟨data, last, prev, fiable, hprep⟩ := prepare_eq s
    rw [hu, hprep]
    rfl
  | request bus vec bit =>
    obtain ⟨ifr, hifr⟩ := latched_of_repeating h hsafe
    exact (congrArg (fun s : State => s.toCpu.pointers) hifr).trans rfl
  | wake => rfl
  | poke addr v =>
    show Cpu.pointers (if inApi addr then setApi s.toCpu addr v else setData s.toCpu addr v) = _
    split <;> rfl
  | reset regs => exact absurd h.active (by simp [show s.rptActive = false from hsafe])

/-- The core without the requests it has latched and without the history of its opcodes. -/
def Cpu.working (s : Cpu) : Cpu :=
  { s with ifr := 0, lastRunOp := 0, prevOp := 0, tcFiable := false }

/-- Nobody else stores into the memory: no poke, and no turn that seeds 0x435B. -/
def Undisturbed (s : State) : Event → Prop
  | .pass _ => ¬ (s.pc.setWidth 16 = (0xA4E4 : Word) ∧ s.data 0x435B = 0)
  | .poke _ _ => False
  | _ => True

instance (s : State) : (e : Event) → Decidable (Undisturbed s e)
  | .pass _ => inferInstanceAs (Decidable (¬ _))
  | .request _ _ _ => inferInstanceAs (Decidable True)
  | .wake => inferInstanceAs (Decidable True)
  | .poke _ _ => inferInstanceAs (Decidable False)
  | .reset _ => inferInstanceAs (Decidable True)

theorem between_working (h : Repeating pc k s) (hsafe : RepeatSafe g op s e)
    (hund : Undisturbed s e) : Between Cpu.working g s e := by
  cases e with
  | pass bus =>
    intro u hdec
    obtain ⟨-, -, ifr, hu⟩ := of_decoding_quiet (hsafe h.active).2.2 hdec
    have hseed : seed435b s = s := if_neg hund
    rw [hu]
    simp only [prepare, hseed]
    rfl
  | request bus vec bit =>
    obtain ⟨ifr, hifr⟩ := latched_of_repeating h hsafe
    exact (congrArg (fun s : State => s.toCpu.working) hifr).trans rfl
  | wake => rfl
  | poke addr v => exact absurd hund id
  | reset regs => exact absurd h.active (by simp [show s.rptActive = false from hsafe])

/-! ### From the RPT on -/

theorem pointers_runOp (c : Ctx) (op : Word) (s : Cpu) :
    (runOp c op s).rptFresh = (execOp op c s).2.rptFresh ∧
      (runOp c op s).mvpdSrc = (execOp op c s).2.mvpdSrc := by
  obtain ⟨a, b, st0, heq⟩ := overflowPass_eq s (execOp op c s).2
  rw [runOp, heq]
  exact ⟨rfl, rfl⟩

theorem ArmsRepeat.rptFresh (h : ArmsRepeat g bus s k) : (pass g bus s).1.rptFresh := by
  obtain ⟨n, hrpt⟩ := h.rpt
  obtain ⟨-, hop, -⟩ := of_decoding_quiet h.quiet (decoding_of_quiet h.executes h.quiet)
  have hquiet : levelCheck g bus (prepare s) = ((levelCheck g bus (prepare s)).1, none) :=
    Prod.ext rfl h.quiet.levelCheck
  unfold outcomeAt at hrpt
  rw [h.armed.1, toCpu_execSettled hquiet, (pointers_runOp _ _ _).1, hop]
  exact rptFresh_of_rpt hrpt

/-- The executions behind an RPT. Between two of them the pointer stays, and if nobody else stores
into the memory, so does all the rest of the core. -/
theorem ArmsRepeat.iterates (harm : ArmsRepeat g bus s k) (hop : FallsThrough op)
    (hsafe : (core g).Along (RepeatSafe g op) (pass g bus s).1 es) (hn : passes es = k.toNat + 1) :
    ∃ x₀ xs, (instances g).trace (pass g bus s).1 es = x₀ :: xs ∧ xs.length = k.toNat ∧
      Iterates Cpu.pointers op (pass g bus s).1.toCpu (x₀ :: xs) ∧
      ((core g).Along Undisturbed (pass g bus s).1 es →
        Iterates Cpu.working op (pass g bus s).1.toCpu (x₀ :: xs)) := by
  obtain ⟨hlen, hit⟩ := run_iterates hop (fun _ _ _ _ h hs _ => between_pointers h hs)
    harm.armed.2 hsafe (Machine.along_true _ _) hn
  obtain ⟨x₀, xs, htrace⟩ := List.exists_cons_of_length_eq_add_one hlen
  rw [htrace] at hit hlen
  refine ⟨x₀, xs, htrace, Nat.succ.inj hlen, hit, fun hund => ?_⟩
  obtain ⟨-, hwork⟩ := run_iterates hop (fun _ _ _ _ h hs hu => between_working h hs hu)
    harm.armed.2 hsafe hund hn
  rw [htrace] at hwork
  exact hwork

end Qosmo.C54x
