import Qosmo.C54x.Rete

/-!
# Qosmo.C54x.Block

The block repeat: RPTB runs the block RSA..REA BRC + 1 times.

`c54x_run` ends each turn with the test for the end of the block: the instruction began
at or before REA, fell through, and PC is now behind REA. Interrupts taken between two
turns come after that test and do no harm. The timer ticks inside the turn and in front
of it: when it enters its interrupt, the test sees the vector as PC. If the vector lies
behind REA, any instruction of the block seems to end it; if it does not, the last
instruction of the block does not seem to.

The block is counted in rounds (`Round`), with the end of a round judged on the PC the
instruction itself left (`endsBlock`). A run of the block alternates between its turns
and whatever else happens meanwhile: service routines from entry to return, requests
that are only latched, stores of the ARM. `block_executes` counts the rounds of every
run in which the timer's interrupt, where it is entered by a turn of the block, meets
neither of the two cases above (`TickSafe`).
-/

namespace Qosmo.C54x

open State

variable {g : Gates} {bus : Bus} {s : State}

/-! ### A turn of the block -/

/-- The core after the instruction of a turn, with PC moved and a finished repeat
switched off: what the timer tick finds. -/
def landed (g : Gates) (bus : Bus) (s : State) : State :=
  let r := execSettled g bus (prepare s)
  advance r.2.1 { r.1 with rptActive := false }

/-- The turn goes past the single repeat. -/
def completes (g : Gates) (bus : Bus) (s : State) : Bool :=
  let u := (execSettled g bus (prepare s)).1
  !u.rptActive || (s.rptActive && u.rptCount == 0)

/-- The instruction of the turn ended a round of the block: it began in the block, fell
through, and left PC behind REA. -/
def endsBlock (g : Gates) (bus : Bus) (s : State) : Bool :=
  let v := landed g bus s
  let n := (execSettled g bus (prepare s)).2.1
  completes g bus s &&
    blockEnd s.pc16 v.pc16 n { v with toSeq := countSlots s.delaySlots n v.toSeq }

/-- Where the tick enters the timer's interrupt, the instruction was not the last of the
block, the vector does not lie behind the block, and the frame goes to memory. -/
def TickSafe (g : Gates) (bus : Bus) (s : State) : Prop :=
  completes g bus s = true → tickEnters (landed g bus s) = true →
    endsBlock g bus s = false ∧
    ((landed g bus s).vector 19).setWidth 16 ≤ (landed g bus s).rea ∧
    FrameInMemory (landed g bus s).toCpu true

/-- The instruction leaves the registers of the block repeat alone and does not stop the
core. -/
def KeepsBlock (g : Gates) (bus : Bus) (s : State) : Prop :=
  let u := (execSettled g bus (prepare s)).1
  u.brc = s.brc ∧ u.rsa = s.rsa ∧ u.rea = s.rea ∧ u.rptbActive = true ∧ u.idle = false

def BlockTurn (g : Gates) (bus : Bus) (s : State) : Prop :=
  s.executes = true ∧ Quiet g bus s ∧ KeepsBlock g bus s ∧ TickSafe g bus s

/-- A turn whose level check enters an interrupt, with its frame in memory. It leaves PC
one word behind the vector: that must not look like the end of the block, unless a single
repeat puts the test off. -/
def LevelTurn (g : Gates) (bus : Bus) (s : State) : Prop :=
  s.executes = true ∧ replayBit s = none ∧
  ∃ t ∈ (levelCheck g bus (prepare s)).2, FrameInMemory t.pre.toCpu false ∧
    (t.pre.rptActive = true ∧ t.pre.rptCount ≠ 0 ∨ t.pre.rea < t.pre.pc16 ∨
      (t.pre.vector t.vec + 1).setWidth 16 ≤ t.pre.rea)

/-- A turn that replays a latched request, with its frame in memory, and executes the
first instruction of the service routine. -/
def ReplayTurn (g : Gates) (bus : Bus) (s : State) : Prop :=
  s.executes = true ∧ replayBit s ≠ none ∧ FrameInMemory s.toCpu true ∧
  SameBlock (replay bus s).1 (pass g bus s).1

/-! ### A run of the block -/

/-- What a run of the block is made of. -/
inductive Phase where
  /-- a turn of the block -/
  | turn (bus : Bus)
  /-- a turn whose level check enters an interrupt -/
  | level (bus : Bus)
  /-- a turn that replays a latched request -/
  | replay (bus : Bus)
  /-- a request of a peripheral -/
  | request (bus : Bus) (vec bit : Nat)
  /-- a service routine up to its RETE, or stores of the ARM between two turns -/
  | service (es : List Event)

/-- The end of a round: back to the start of the block, or on behind it. -/
inductive Round where
  | again (pc : BitVec 32)
  | last
  deriving DecidableEq

/-- The core running a block; the rounds are what it shows. -/
def blockStep (g : Gates) (s : State) : Phase → State × List Round
  | .turn bus =>
    let s' := (pass g bus s).1
    (s', if endsBlock g bus s then [if s'.rptbActive then .again s'.pc else .last] else [])
  | .level bus => ((pass g bus s).1, [])
  | .replay bus => ((pass g bus s).1, [])
  | .request bus vec bit => ((interruptEx bus s vec bit).1, [])
  | .service es => ((core g).final s es, [])

def blocks (g : Gates) : Machine State Phase Round := ⟨blockStep g⟩

/-- The block is active, its turns and the entries between them are as above, and the
service routines leave BRC, RSA, REA and BRAF as they find them. -/
def BlockSafe (g : Gates) (s : State) (p : Phase) : Prop :=
  s.rptbActive = true ∧
  match p with
  | .turn bus => BlockTurn g bus s
  | .level bus => LevelTurn g bus s
  | .replay bus => ReplayTurn g bus s
  | .request bus vec bit =>
    (interruptEx bus s vec bit).2.isSome = true → FrameInMemory s.toCpu true
  | .service es => SameBlock s ((core g).final s es)

instance (s s' : State) : Decidable (SameBlock s s') :=
  decidable_of_iff (s'.brc = s.brc ∧ s'.rsa = s.rsa ∧ s'.rea = s.rea ∧ s'.rptbActive = s.rptbActive)
    ⟨fun h => ⟨h.1, h.2.1, h.2.2.1, h.2.2.2⟩, fun h => ⟨h.brc, h.rsa, h.rea, h.active⟩⟩

instance (g : Gates) (bus : Bus) (s : State) : Decidable (TickSafe g bus s) :=
  inferInstanceAs (Decidable (_ → _ → _ ∧ _ ∧ _))

instance (g : Gates) (bus : Bus) (s : State) : Decidable (KeepsBlock g bus s) :=
  inferInstanceAs (Decidable (_ ∧ _ ∧ _ ∧ _ ∧ _))

instance (g : Gates) (bus : Bus) (s : State) : Decidable (BlockTurn g bus s) :=
  inferInstanceAs (Decidable (_ ∧ _ ∧ _ ∧ _))

instance (g : Gates) (bus : Bus) (s : State) : Decidable (LevelTurn g bus s) :=
  inferInstanceAs (Decidable (_ ∧ _ ∧ ∃ t ∈ (levelCheck g bus (prepare s)).2, _ ∧ _))

instance (g : Gates) (bus : Bus) (s : State) : Decidable (ReplayTurn g bus s) :=
  inferInstanceAs (Decidable (_ ∧ _ ∧ _ ∧ _))

instance (g : Gates) (s : State) : ∀ p : Phase, Decidable (BlockSafe g s p)
  | .turn bus => inferInstanceAs (Decidable (_ ∧ BlockTurn g bus s))
  | .level bus => inferInstanceAs (Decidable (_ ∧ LevelTurn g bus s))
  | .replay bus => inferInstanceAs (Decidable (_ ∧ ReplayTurn g bus s))
  | .request bus vec bit =>
    inferInstanceAs (Decidable (_ ∧
      ((interruptEx bus s vec bit).2.isSome = true → FrameInMemory s.toCpu true)))
  | .service es => inferInstanceAs (Decidable (_ ∧ SameBlock s ((core g).final s es)))

/-! ### Entries between two turns -/

theorem SameBlock.trans {s₁ s₂ s₃ : State} (h : SameBlock s₁ s₂) (h' : SameBlock s₂ s₃) :
    SameBlock s₁ s₃ :=
  ⟨h'.brc.trans h.brc, h'.rsa.trans h.rsa, h'.rea.trans h.rea, h'.active.trans h.active⟩

theorem sameBlock_prepare (s : State) : SameBlock s (prepare s) := by
  obtain ⟨data, last, prev, fiable, heq⟩ := prepare_eq s
  rw [heq]
  exact ⟨rfl, rfl, rfl, rfl⟩

theorem sameBlock_dmaLevel (bus : Bus) (s : State) : SameBlock s (dmaLevel bus s) := by
  obtain ⟨ifr, heq⟩ := dmaLevel_eq bus s
  rw [heq]
  exact ⟨rfl, rfl, rfl, rfl⟩

theorem enter_sameBlock {c : Ctx} {vec bit : Nat} {ret : Word} {always : Bool}
    (h : FrameInMemory s.toCpu always) : SameBlock s (enter c s vec bit ret always) :=
  ⟨enter_brc.trans (h.stored (by decide)), enter_rsa.trans (h.stored (by decide)),
    enter_rea.trans (h.stored (by decide)), rfl⟩

theorem interruptEx_sameBlock {vec bit : Nat}
    (h : (interruptEx bus s vec bit).2.isSome → FrameInMemory s.toCpu true) :
    SameBlock s (interruptEx bus s vec bit).1 := by
  cases ht : (interruptEx bus s vec bit).2 with
  | some t =>
    obtain ⟨-, -, -, idle, henter⟩ := interruptEx_eq_some ht
    rw [henter]
    have hmem : FrameInMemory s.toCpu true := h (by rw [ht]; rfl)
    refine .trans ?_ (enter_sameBlock (hmem.of_eq (by rfl) (by rfl)))
    exact ⟨rfl, rfl, rfl, rfl⟩
  | none =>
    unfold interruptEx at ht ⊢
    dsimp only at ht ⊢
    split_ifs at ht ⊢ <;> exact ⟨rfl, rfl, rfl, rfl⟩

theorem ReplayTurn.sameBlock (h : ReplayTurn g bus s) : SameBlock s (pass g bus s).1 := by
  obtain ⟨-, hbit, hmem, hfirst⟩ := h
  obtain ⟨b, hb⟩ := Option.ne_none_iff_exists'.mp hbit
  have hentered : SameBlock s (replay bus s).1 := by
    simp only [replay, hb]
    exact enter_sameBlock hmem
  exact hentered.trans hfirst

variable {execPc : Word} {v : State}

/-- Outside the slots, nothing happens behind a word that does not seem to end the block. -/
theorem afterSlots_eq_self {ds : BitVec 8} {n : Nat} (hslots : v.delaySlots = 0)
    (hin : v.rea < execPc ∨ v.pc16 ≤ v.rea) : afterSlots execPc ds n v = v := by
  unfold afterSlots
  rw [countSlots_of_zero hslots]
  unfold blockRepeat blockEnd
  rw [if_neg]
  intro h
  simp only [Bool.and_eq_true, decide_eq_true_eq] at h
  obtain ⟨-, ⟨-, hle⟩, hlt⟩ := h
  rcases hin with hin | hin
  · exact BitVec.not_lt.mpr hle hin
  · exact BitVec.not_lt.mpr hin hlt

/-- A turn of one word that enters nothing and does not seem to end the block. -/
theorem complete_sameBlock (bus : Bus) (ds : BitVec 8)
    (hidle : v.idle = false) (hslots : v.delaySlots = 0) (hintm : v.intm)
    (hin : v.rea < execPc ∨ (v.pc + 1).setWidth 16 ≤ v.rea) :
    SameBlock v (complete bus execPc ds 1 v).1 := by
  have hoff : tickEnters (advance 1 v) = false := by
    simp [tickEnters, show (advance 1 v).intm from hintm]
  obtain ⟨data, psc, ifr, cycles, insns, heq⟩ :=
    complete_eq (s := v) execPc ds hidle (timer_of_not_enters hidle hoff)
  have hpc : (advance 1 v).pc16 = (v.pc + 1).setWidth 16 := setWidth_and_mask (v.pc + 1)
  have hstay : afterSlots execPc ds 1 (advance 1 v) = advance 1 v :=
    afterSlots_eq_self hslots (hpc.symm ▸ hin)
  rw [heq, hstay]
  exact ⟨rfl, rfl, rfl, rfl⟩

theorem repeatOrComplete_sameBlock {ds : BitVec 8} {u : State}
    (hidle : u.idle = false) (hslots : u.delaySlots = 0) (hintm : u.intm)
    (hin : u.rptActive ∧ u.rptCount ≠ 0 ∨ u.rea < execPc ∨ (u.pc + 1).setWidth 16 ≤ u.rea) :
    SameBlock u (repeatOrComplete bus execPc ds u.rptActive 1 u).1 := by
  unfold repeatOrComplete
  cases hact : u.rptActive with
  | false =>
    rw [if_neg (by simp)]
    exact complete_sameBlock bus ds hidle hslots hintm (hin.resolve_left (by simp [hact]))
  | true =>
    rw [if_pos (by simp [hidle]), if_neg (by simp)]
    by_cases hcount : u.rptCount = 0
    · rw [if_neg (by simp [hcount])]
      have h := complete_sameBlock bus ds (v := { u with rptActive := false }) hidle hslots hintm
        (hin.resolve_left (by simp [hcount]))
      exact ⟨h.brc, h.rsa, h.rea, h.active⟩
    · rw [if_pos hcount]
      exact ⟨rfl, rfl, rfl, rfl⟩

theorem LevelTurn.sameBlock (h : LevelTurn g bus s) : SameBlock s (pass g bus s).1 := by
  obtain ⟨hexec, hbit, t, ht, hmem, hin⟩ := h
  have hreplay : replay bus s = (s, none) := by simp only [replay, hbit]
  obtain ⟨u, hseq, hu, hidle, hslots, hintm, heq⟩ := pass_eq_of_level hexec hreplay ht
  obtain ⟨-, -, hpre, henter⟩ := levelCheck_eq_some ht
  have hpc16 : s.pc16 = t.pre.pc16 :=
    congrArg (fun q : Seq => q.pc.setWidth 16) (toSeq_of_level ht).symm
  generalize t.pre = d at hmem hin hpre henter hpc16
  have hds : SameBlock s d := by
    rw [hpre]
    exact (sameBlock_prepare s).trans (sameBlock_dmaLevel bus _)
  rw [henter] at hseq hu
  have hdu : SameBlock d u := (enter_sameBlock hmem).trans hu
  -- the entry left PC at the vector
  have hpc : u.pc = d.vector t.vec := by
    rw [congrArg Seq.pc hseq]
    exact enter_pc.trans (congrArg (vectorAt · t.vec) (hmem.stored (by decide)))
  have hrpt : u.rptActive = d.rptActive := (congrArg Seq.rptActive hseq).trans enter_seq.1
  have hcount : u.rptCount = d.rptCount := (congrArg Seq.rptCount hseq).trans enter_seq.2.1
  rw [heq]
  refine (hds.trans hdu).trans (repeatOrComplete_sameBlock hidle hslots hintm ?_)
  rw [hrpt, hcount, hdu.rea, hpc, hpc16]
  exact hin

/-! ### The rest of a turn -/

theorem pass_eq_repeatOrComplete (hexec : s.executes) (hquiet : Quiet g bus s) :
    (pass g bus s).1 = (repeatOrComplete bus s.pc16 s.delaySlots s.rptActive
      (execSettled g bus (prepare s)).2.1 (execSettled g bus (prepare s)).1).1 := by
  obtain ⟨hpc, hds, hrpt⟩ := prepare_seq s
  rw [pass_of_quiet hexec hquiet]
  simp only [instruction, hpc, hds, hrpt]

theorem pass_of_not_completes (h : BlockTurn g bus s) (hc : completes g bus s = false) :
    (pass g bus s).1.brc = s.brc ∧ (pass g bus s).1.rsa = s.rsa ∧
      (pass g bus s).1.rptbActive := by
  obtain ⟨hexec, hquiet, ⟨hbrc, hrsa, -, hact, hidle⟩, -⟩ := h
  simp only [completes, Bool.or_eq_false_iff, Bool.not_eq_false', Bool.and_eq_false_iff] at hc
  rw [pass_eq_repeatOrComplete hexec hquiet]
  unfold repeatOrComplete
  rw [if_pos (by simp [hc.1, hidle])]
  split
  · exact ⟨hbrc, hrsa, hact⟩
  · rename_i hwas
    rw [if_pos]
    · exact ⟨hbrc, hrsa, hact⟩
    · intro hzero
      rcases hc.2 with hoff | hcount
      · exact hwas (by simp [hoff])
      · simp [hzero] at hcount

/-- A turn that goes past the repeat: the tick on the state the instruction left, then
the delay slots and the test for the end of the block. -/
theorem pass_of_completes (h : BlockTurn g bus s) (hc : completes g bus s) :
    ∃ cycles insns, (pass g bus s).1 =
      { afterSlots s.pc16 s.delaySlots (execSettled g bus (prepare s)).2.1
          (timer bus (landed g bus s)).1 with cycles := cycles, insnCount := insns } := by
  obtain ⟨hexec, hquiet, ⟨-, -, -, -, hidle⟩, -⟩ := h
  simp only [completes, Bool.or_eq_true, Bool.not_eq_true', Bool.and_eq_true, beq_iff_eq] at hc
  have hcomplete : (pass g bus s).1 = (complete bus s.pc16 s.delaySlots
      (execSettled g bus (prepare s)).2.1
      { (execSettled g bus (prepare s)).1 with rptActive := false }).1 := by
    rw [pass_eq_repeatOrComplete hexec hquiet]
    generalize (execSettled g bus (prepare s)).1 = u at hc hidle ⊢
    unfold repeatOrComplete
    by_cases hrpt : u.rptActive
    · obtain ⟨hwas, hcount⟩ := hc.resolve_left (by simp [hrpt])
      rw [if_pos (by simp [hrpt, hidle]), if_neg (by simp [hwas]), if_neg (by simp [hcount])]
    · rw [if_neg (by simp [hrpt])]
      rw [Bool.not_eq_true] at hrpt
      have heq : { u with rptActive := false } = u := by rw [← hrpt]
      rw [heq]
  rw [hcomplete]
  exact complete_eq_afterSlots bus _ _ _ _

theorem KeepsBlock.landed (h : KeepsBlock g bus s) :
    (landed g bus s).brc = s.brc ∧ (landed g bus s).rsa = s.rsa ∧
      (landed g bus s).rptbActive ∧ (landed g bus s).rptActive = false ∧
      (landed g bus s).idle = false :=
  ⟨h.1, h.2.1, h.2.2.2.1, rfl, h.2.2.2.2⟩

/-- The test for the end of a block, on a state in which the block is active and no
single repeat is running. -/
theorem afterSlots_of_active {ds : BitVec 8} {n : Nat}
    (hact : v.rptbActive) (hrpt : v.rptActive = false) :
    afterSlots execPc ds n v =
      if blockEnd execPc v.pc16 n { v with toSeq := countSlots ds n v.toSeq } then
        if v.brc ≠ 0 then
          { v with toSeq := { countSlots ds n v.toSeq with pc := v.rsa.setWidth 32 }, brc := v.brc - 1 }
        else
          { v with toSeq := { countSlots ds n v.toSeq with rptbActive := false }
                   st1 := clearBit v.st1 St1.braf }
      else { v with toSeq := countSlots ds n v.toSeq } := by
  obtain ⟨slots, pc, hslots⟩ := countSlots_eq ds n v.toSeq
  unfold afterSlots blockRepeat
  rw [hslots]
  simp only [hact, hrpt]
  rfl

/-- What a turn does to the block, by whether it ended a round. -/
structure Turned (s s' : State) (ended : Bool) : Prop where
  rsa : s'.rsa = s.rsa
  within : ended = false → s'.brc = s.brc ∧ s'.rptbActive = true
  again : ended = true → s.brc ≠ 0 →
    s'.brc = s.brc - 1 ∧ s'.pc = s.rsa.setWidth 32 ∧ s'.rptbActive = true
  last : ended = true → s.brc = 0 → s'.rptbActive = false

/-- A turn whose tick enters nothing: the test sees the PC the instruction left. -/
theorem turned_of_quiet_tick (h : BlockTurn g bus s) (hc : completes g bus s)
    (hoff : tickEnters (landed g bus s) = false) :
    Turned s (pass g bus s).1 (endsBlock g bus s) := by
  obtain ⟨hvb, hvr, hva, hvp, hvi⟩ := h.2.2.1.landed
  obtain ⟨cycles, insns, hpass⟩ := pass_of_completes h hc
  rw [hpass]
  have hends : endsBlock g bus s = blockEnd s.pc16 (landed g bus s).pc16
      (execSettled g bus (prepare s)).2.1 { landed g bus s with
        toSeq := countSlots s.delaySlots (execSettled g bus (prepare s)).2.1
          (landed g bus s).toSeq } := by
    simp only [endsBlock, hc, Bool.true_and]
  rw [hends]
  generalize landed g bus s = v at hoff hvb hvr hva hvp hvi ⊢
  generalize (execSettled g bus (prepare s)).2.1 = n
  have htick : (timer bus v).2 = none := timer_of_not_enters hvi hoff
  obtain ⟨data, psc, ifr, heq⟩ := afterSlots_timer s.pc16 s.delaySlots n hvi htick
  rw [heq, afterSlots_of_active hva hvp]
  obtain ⟨slots, pc, hslots⟩ := countSlots_eq s.delaySlots n v.toSeq
  cases hend : blockEnd s.pc16 v.pc16 n { v with toSeq := countSlots s.delaySlots n v.toSeq } with
  | false =>
    refine ⟨hvr, fun _ => ⟨hvb, ?_⟩, by simp, by simp⟩
    rw [if_neg (by simp), hslots]
    exact hva
  | true =>
    rw [if_pos rfl]
    by_cases hzero : v.brc = 0
    · rw [if_neg (by simp [hzero])]
      exact ⟨hvr, by simp, fun _ hne => absurd (hvb.symm.trans hzero) hne, fun _ _ => rfl⟩
    · rw [if_pos hzero]
      refine ⟨hvr, by simp, fun _ _ => ⟨congrArg (· - 1) hvb, congrArg (·.setWidth 32) hvr, ?_⟩,
        fun _ hz => absurd (hvb.trans hz) hzero⟩
      rw [hslots]
      exact hva

/-- The timer's entry with its frame in memory: the block is kept, PC is the vector. -/
theorem timer_entered (bus : Bus) (hidle : v.idle = false) (hon : tickEnters v)
    (hmem : FrameInMemory v.toCpu true) :
    SameBlock v (timer bus v).1 ∧ (timer bus v).1.pc = v.vector 19 ∧
      (timer bus v).1.delaySlots = v.delaySlots := by
  obtain ⟨data, psc, ifr, henter⟩ := timer_of_enters hidle hon
  have hmem' : FrameInMemory { v.toCpu with data := data, timerPsc := psc, ifr := ifr } true :=
    hmem.of_eq (by rfl) (by rfl)
  rw [henter, enter_pc, hmem'.stored (by decide)]
  refine ⟨.trans ?_ (enter_sameBlock hmem'), rfl, rfl⟩
  exact ⟨rfl, rfl, rfl, rfl⟩

/-- A turn whose tick enters the timer's interrupt inside the block: the test sees a PC
that is not behind REA. -/
theorem turned_of_tick (h : BlockTurn g bus s) (hc : completes g bus s)
    (hon : tickEnters (landed g bus s)) : Turned s (pass g bus s).1 (endsBlock g bus s) := by
  obtain ⟨hend, hvec, hmem⟩ := h.2.2.2 hc hon
  obtain ⟨hvb, hvr, hva, -, hvi⟩ := h.2.2.1.landed
  obtain ⟨cycles, insns, hpass⟩ := pass_of_completes h hc
  rw [hpass, hend]
  generalize landed g bus s = v at hon hvec hmem hvb hvr hva hvi ⊢
  generalize (execSettled g bus (prepare s)).2.1 = n
  have hslots : v.delaySlots = 0 := by
    simp only [tickEnters, Bool.and_eq_true, beq_iff_eq] at hon
    exact hon.2
  obtain ⟨hsame, hepc, heslots⟩ := timer_entered bus hvi hon hmem
  generalize (timer bus v).1 = e at hsame hepc heslots ⊢
  -- the vector is not behind REA, so the block is not seen to end
  have hin : e.pc16 ≤ e.rea := by
    rw [hsame.rea, pc16, hepc]
    exact hvec
  rw [afterSlots_eq_self (heslots.trans hslots) (.inr hin)]
  exact ⟨hsame.rsa.trans hvr, fun _ => ⟨hsame.brc.trans hvb, hsame.active.trans hva⟩, by simp,
    by simp⟩

/-- Every turn of the block counts its round if it ends one. -/
theorem BlockTurn.turned (h : BlockTurn g bus s) :
    Turned s (pass g bus s).1 (endsBlock g bus s) := by
  cases hc : completes g bus s with
  | false =>
    obtain ⟨hbrc, hrsa, hact⟩ := pass_of_not_completes h hc
    have hend : endsBlock g bus s = false := by simp only [endsBlock, hc, Bool.false_and]
    rw [hend]
    exact ⟨hrsa, fun _ => ⟨hbrc, hact⟩, by simp, by simp⟩
  | true =>
    cases hon : tickEnters (landed g bus s) with
    | false => exact turned_of_quiet_tick h hc hon
    | true => exact turned_of_tick h hc hon

/-! ### Every run -/

variable {p : Phase}

/-- Whatever happens between two turns, the block is kept. -/
theorem BlockSafe.cases (h : BlockSafe g s p) :
    (∃ bus, p = .turn bus ∧ BlockTurn g bus s) ∨
    (SameBlock s (blockStep g s p).1 ∧ (blockStep g s p).2 = []) := by
  cases p with
  | turn bus => exact Or.inl ⟨bus, rfl, h.2⟩
  | level bus | replay bus => exact Or.inr ⟨h.2.sameBlock, rfl⟩
  | request bus vec bit => exact Or.inr ⟨interruptEx_sameBlock h.2, rfl⟩
  | service es => exact Or.inr ⟨h.2, rfl⟩

theorem BlockSafe.rsa (h : BlockSafe g s p) : (blockStep g s p).1.rsa = s.rsa := by
  obtain ⟨bus, rfl, hturn⟩ | ⟨hsame, -⟩ := h.cases
  · exact hturn.turned.rsa
  · exact hsame.rsa

/-- One phase shows a round exactly if it counts BRC down or leaves the block. -/
theorem BlockSafe.counted (h : BlockSafe g s p) :
    Machine.Counted (fun s : State => s.rptbActive) (fun s => s.brc.toNat)
      (Round.again (s.rsa.setWidth 32)) .last s (blockStep g s p).1 (blockStep g s p).2 := by
  obtain ⟨bus, rfl, hturn⟩ | ⟨hsame, hobs⟩ := h.cases
  · have ht := hturn.turned
    simp only [blockStep]
    generalize (pass g bus s).1 = s' at ht
    cases hend : endsBlock g bus s with
    | false =>
      obtain ⟨hbrc, hact⟩ := ht.within hend
      exact .within hact (congrArg BitVec.toNat hbrc)
    | true =>
      rw [if_pos rfl]
      by_cases hzero : s.brc = 0
      · have hact := ht.last hend hzero
        rw [if_neg (by simp [hact])]
        exact .last hact (by rw [hzero]; rfl)
      · obtain ⟨hbrc, hpc, hact⟩ := ht.again hend hzero
        rw [if_pos hact, hpc]
        refine .again hact ?_
        rw [hbrc]
        bv_omega
  · rw [hobs]
    exact .within (hsame.active.trans h.1) (congrArg BitVec.toNat hsame.brc)

/-- **RPTB runs the block BRC + 1 times.** Along every run of the block, whatever
interrupts are taken behind its instructions: while it is active, it has gone back to RSA
once for each count BRC has lost; once it is over, it has gone back as often as BRC said,
and has run once more. -/
theorem block_executes (g : Gates) (s : State) (ps : List Phase) (hact : s.rptbActive = true)
    (hsafe : (blocks g).Along (BlockSafe g) s ps) :
    (((blocks g).final s ps).rptbActive = true →
      ((blocks g).final s ps).brc.toNat ≤ s.brc.toNat ∧
      (blocks g).trace s ps = List.replicate
        (s.brc.toNat - ((blocks g).final s ps).brc.toNat) (.again (s.rsa.setWidth 32))) ∧
    (((blocks g).final s ps).rptbActive = false →
      (blocks g).trace s ps = List.replicate s.brc.toNat (.again (s.rsa.setWidth 32)) ++ [.last]) :=
  Machine.trace_counted (M := blocks g) (C := BlockSafe g) (I := fun s' => s'.rsa = s.rsa)
    (fun _ _ hrsa h => h.rsa.trans hrsa) (fun _ _ h => h.1)
    (fun _ _ hrsa h => hrsa ▸ h.counted) rfl hact hsafe

/-- STM #1, BRC; RSBX INTM; RPTB 0xFF86; NOP; NOP, and RETE at vector 28. -/
def blockProgram : List Word :=
  [0x771A, 0x0001, 0xF6BB, 0xF072, 0xFF86] ++ List.replicate 107 0xF495 ++ [0xF4EB]

/-- The frame interrupt is entered and served behind the first instruction of the block. -/
theorem block_with_request :
    (blocks ⟨false⟩).trace
      ((core ⟨false⟩).final (boot blockProgram) [.pass .quiet, .pass .quiet, .pass .quiet])
      [.turn .quiet, .request .quiet 28 12, .service [.pass .quiet], .turn .quiet, .turn .quiet,
        .turn .quiet] = [.again 0xFF85, .last] :=
  (block_executes ⟨false⟩
    ((core ⟨false⟩).final (boot blockProgram) [.pass .quiet, .pass .quiet, .pass .quiet])
    [.turn .quiet, .request .quiet 28 12, .service [.pass .quiet], .turn .quiet, .turn .quiet,
      .turn .quiet] (by decide +kernel) (by decide +kernel)).2 (by decide +kernel)

/-- STM #1, BRC; STM #4, TIM; STM #0, TCR; RSBX INTM; RPTB 0xFF8B; NOP; NOP; NOP. -/
def tickProgram : List Word :=
  [0x771A, 0x0001, 0x7724, 0x0004, 0x7726, 0x0000, 0xF6BB, 0xF072, 0xFF8B, 0xF495, 0xF495, 0xF495]

/-- The timer is entered behind the second instruction of the block: the block goes back
to RSA without executing its third, which is executed once where BRC says twice. -/
theorem block_cut_short :
    ((core ⟨false⟩).final (boot tickProgram) (List.replicate 5 (.pass .quiet))).rptbActive = true ∧
    ((core ⟨false⟩).final (boot tickProgram) (List.replicate 5 (.pass .quiet))).brc = 1 ∧
    ((core ⟨false⟩).final (boot tickProgram) (List.replicate 10 (.pass .quiet))).rptbActive = false ∧
    (executions ((core ⟨false⟩).trace (boot tickProgram) (List.replicate 10 (.pass .quiet)))).drop 5 =
      [(0xFF89, 0xF495), (0xFF8A, 0xF495), (0xFF89, 0xF495), (0xFF8A, 0xF495), (0xFF8B, 0xF495)] := by
  decide +kernel

end Qosmo.C54x
