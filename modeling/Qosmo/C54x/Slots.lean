import Qosmo.C54x.Entry
import Qosmo.C54x.Transfer

/-!
# Qosmo.C54x.Slots

The two words behind a delayed branch, call or return.

The instruction leaves its target in `delayed_pc` and the main loop counts two more words
before it goes there. The words are fetched with the page the instruction left: where they
lie in the banked part of the memory and the page changes, the words executed are those of
the other page.

A run is followed with the words that are still due (`Tracked`), named by the place they are
fetched from as seen by the transfer. Outside a few situations no program creates on purpose
(`Regular`), the words come in order and lead to the target exactly where the page of the
target does not move them (`PageKept`).
-/

namespace Qosmo.C54x

open State

/-! ### The turn of a transfer and the turns of its slots -/

variable {g : Gates} {bus : Bus} {s u : State}

def outcome (bus : Bus) (u : State) : Outcome := (execOp (opAt u) (u.ctx bus) u.toCpu).1

/-- The core after the instruction decoded in `u`, with the overflow pass. -/
def executed (bus : Bus) (u : State) : State :=
  { toCpu := runOp (u.ctx bus) (opAt u) u.toCpu
    toSeq := (applyOutcome u.toSeq (outcome bus u)).1 }

theorem execSettled_of_decoding (h : decoding g bus s = some u) :
    (execSettled g bus (prepare (replay bus s).1)).1 = executed bus u ∧
      (execSettled g bus (prepare (replay bus s).1)).2.1 =
        (applyOutcome u.toSeq (outcome bus u)).2 := by
  obtain ⟨-, hlc⟩ := decoding_eq_some h
  generalize prepare (replay bus s).1 = p at hlc ⊢
  have hcpu := toCpu_execSettled hlc
  have hseq : (execSettled g bus p).1.toSeq = (applyOutcome u.toSeq (outcome bus u)).1 := by
    simp only [execSettled, execOne, hlc]
    rfl
  constructor
  · show State.mk (execSettled g bus p).1.toCpu (execSettled g bus p).1.toSeq = _
    rw [hcpu, hseq]
    rfl
  · simp only [execSettled, execOne, hlc]
    rfl

theorem pass_of_decoding (h : decoding g bus s = some u) :
    (pass g bus s).1 = (repeatOrComplete bus u.pc16 u.delaySlots u.rptActive
      (applyOutcome u.toSeq (outcome bus u)).2 (executed bus u)).1 := by
  obtain ⟨hexec, hlc⟩ := decoding_eq_some h
  obtain ⟨hstate, hwords⟩ := execSettled_of_decoding h
  generalize hp : prepare (replay bus s).1 = p at hlc hstate hwords
  obtain ⟨ifr, hifr⟩ := levelCheck_eq_none (congrArg Prod.snd hlc)
  replace hifr : u = { p with ifr := ifr } := (congrArg Prod.fst hlc).symm.trans hifr
  rw [pass_of_executes hexec]
  simp only [instruction, hp, hstate, hwords]
  rw [hifr]
  rfl

theorem idle_of_decoding (h : decoding g bus s = some u) : u.idle = false := by
  obtain ⟨hexec, hlc⟩ := decoding_eq_some h
  have hreplay : (replay bus s).1.idle = s.idle := by
    unfold replay
    split <;> rfl
  have hidle := idle_levelCheck g bus (prepare (replay bus s).1)
  rw [hlc] at hidle
  rw [hidle, congrArg Seq.idle (toSeq_prepare _), hreplay]
  exact (executes_iff.mp hexec).2.1

theorem pc16_masked (pc : BitVec 32) (n : Nat) :
    ((pc + BitVec.ofNat 32 n) &&& 0xFFFF).setWidth 16 = pc.setWidth 16 + BitVec.ofNat 16 n := by
  rw [setWidth_and_mask, BitVec.setWidth_add _ _ (by omega), BitVec.setWidth_ofNat_of_le (by omega)]

theorem tick_in_slots (n : Nat) (hidle : s.idle = false) (hslots : s.delaySlots ≠ 0) :
    (timer bus (advance n s)).2 = none := by
  have hidle' : (advance n s).idle = false := hidle
  have hslots' : (advance n s).delaySlots ≠ 0 := hslots
  have hoff : tickEnters (advance n s) = false := by
    rw [tickEnters, beq_eq_false_iff_ne.mpr hslots', Bool.and_false]
  exact timer_of_not_enters hidle' hoff

variable {n : Nat}

/-- What remains of a turn while a transfer is pending and no block ends: the tick enters
nothing, and the slots are counted. -/
theorem complete_in_slots (bus : Bus) (ds : BitVec 8) {v : State} {execPc : Word}
    (hidle : v.idle = false) (hslots : v.delaySlots ≠ 0)
    (hblock : ¬(v.rptbActive ∧ execPc ≤ v.rea ∧ v.rea < v.pc16 + BitVec.ofNat 16 n)) :
    ∃ data psc ifr cycles insns, (complete bus execPc ds n v).1 =
      { v with
        toSeq := { countSlots ds n (advance n v).toSeq with cycles := cycles, insnCount := insns }
        data := data, timerPsc := psc, ifr := ifr } := by
  have htick : (timer bus (advance n v)).2 = none := tick_in_slots n hidle hslots
  obtain ⟨data, psc, ifr, cycles, insns, heq⟩ := complete_eq (s := v) execPc ds hidle htick
  obtain ⟨slots, pc, hcount⟩ := countSlots_eq ds n (advance n v).toSeq
  -- the block repeat finds PC where the instruction left it, or moved by the transfer
  have hstay : afterSlots execPc ds n (advance n v) =
      { v with toSeq := countSlots ds n (advance n v).toSeq } := by
    unfold afterSlots blockRepeat blockEnd
    rw [if_neg]
    · rfl
    intro h
    simp only [Bool.and_eq_true, beq_iff_eq, decide_eq_true_eq, hcount] at h
    obtain ⟨⟨hact, -⟩, ⟨⟨-, hseq⟩, hle⟩, hlt⟩ := h
    rw [hseq] at hlt
    exact hblock ⟨hact, hle, (pc16_masked v.pc n).symm ▸ hlt⟩
  rw [heq, hstay]
  exact ⟨data, psc, ifr, cycles, insns, rfl⟩

/-- The instruction decoded in `u`, which leaves `e` and takes `n` words, ends a round of a
block repeat. -/
def EndsRound (u : State) (e : Cpu) (n : Nat) : Prop :=
  u.rptbActive = true ∧ u.pc16 ≤ e.rea ∧ e.rea < u.pc16 + BitVec.ofNat 16 n

instance (u : State) (e : Cpu) (n : Nat) : Decidable (EndsRound u e n) :=
  inferInstanceAs (Decidable (_ ∧ _ ∧ _))

def cpuAfter (bus : Bus) (u : State) : Cpu := (execOp (opAt u) (u.ctx bus) u.toCpu).2

/-- What the instruction left survives the rest of its turn: the overflow pass and the tick do not
touch these registers. -/
structure Settles (e e' : Cpu) : Prop where
  xpc : e'.xpc = e.xpc
  pmst : e'.pmst = e.pmst
  sp : e'.sp = e.sp
  st1 : e'.st1 = e.st1

/-- The turn of `u` left `w`: what its instruction of `n` words left, and `q` with its slots
counted. -/
def Counted (bus : Bus) (u : State) (n : Nat) (q : Seq) (w : State) : Prop :=
  Settles (cpuAfter bus u) w.toCpu ∧
    ∃ cycles insns, w.toSeq =
      { countSlots u.delaySlots n q with cycles := cycles, insnCount := insns }

/-- A turn in which a transfer is pending when its instruction is over: nothing is entered,
PC moves behind the instruction and the slots are counted. -/
theorem pass_in_slots {q : Seq} (h : decoding g bus s = some u)
    (hq : applyOutcome u.toSeq (outcome bus u) = (q, n)) (hpc : q.pc = u.pc)
    (hidle : q.idle = false) (hrpt : q.rptActive = false) (hrptb : q.rptbActive = u.rptbActive)
    (hslots : q.delaySlots ≠ 0) (hround : ¬EndsRound u (cpuAfter bus u) n) :
    Counted bus u n { q with pc := (q.pc + BitVec.ofNat 32 n) &&& 0xFFFF } (pass g bus s).1 := by
  obtain ⟨a, b, st0, hov⟩ := overflowPass_eq u.toCpu (cpuAfter bus u)
  obtain ⟨v, hv⟩ : ∃ v : State, v = ⟨{ cpuAfter bus u with a := a, b := b, st0 := st0 }, q⟩ :=
    ⟨_, rfl⟩
  have hexec : executed bus u = v := by
    rw [hv, executed, hq]
    exact congrArg (State.mk · q) hov
  have hpass : (pass g bus s).1 = (complete bus u.pc16 u.delaySlots n v).1 := by
    have hoff : v.rptActive = false := by rw [hv]; exact hrpt
    rw [pass_of_decoding h, hexec, hq]
    unfold repeatOrComplete
    rw [hoff]
    rfl
  have hend : ¬(v.rptbActive ∧ u.pc16 ≤ v.rea ∧ v.rea < v.pc16 + BitVec.ofNat 16 n) := by
    have hpc16 : v.pc16 = u.pc16 := by rw [hv, pc16, hpc]; rfl
    rw [hpc16, hv, hrptb]
    exact hround
  obtain ⟨data, psc, ifr, cycles, insns, heq⟩ := complete_in_slots bus u.delaySlots
    (by rw [hv]; exact hidle) (by rw [hv]; exact hslots) hend
  rw [hpass, heq, hv]
  exact ⟨⟨rfl, rfl, rfl, rfl⟩, cycles, insns, rfl⟩

/-- A core on its way to a target: where it is, and how many words it is away. -/
structure Pending (e : Cpu) (pc : Word) (slots : Nat) (target : Word) (s : State) : Prop
    extends Settles e s.toCpu where
  pc16 : s.pc16 = pc
  slots : s.delaySlots.toNat = slots
  target : s.delayedPc = target
  idle : s.idle = false
  rpt : s.rptActive = false

variable {tgt : Word}

/-- A turn that leaves `slots` words to come. -/
theorem pending_of_turn {w : State} {q : Seq} {slots : BitVec 8} (h : Counted bus u n q w)
    (hcount : countSlots u.delaySlots n q =
      { u.toSeq with
        delayedPc := tgt, delaySlots := slots, pc := (u.pc + BitVec.ofNat 32 n) &&& 0xFFFF })
    (hidle : u.idle = false) (hrpt : u.rptActive = false) :
    Pending (cpuAfter bus u) (u.pc16 + BitVec.ofNat 16 n) slots.toNat tgt w := by
  obtain ⟨hregs, cycles, insns, hseq⟩ := h
  rw [hcount] at hseq
  obtain ⟨cpu, q⟩ := w
  subst hseq
  exact ⟨hregs, pc16_masked u.pc n, rfl, rfl, hidle, hrpt⟩

section

variable (h : decoding g bus s = some u) (hrpt : u.rptActive = false)
  (hround : ¬EndsRound u (cpuAfter bus u) n)

include h hrpt hround

theorem pending_of_transfer (hout : outcome bus u = .flow (.delayed tgt n))
    (hslots : u.delaySlots = 0) :
    Pending (cpuAfter bus u) (u.pc16 + BitVec.ofNat 16 n) 2 tgt (pass g bus s).1 := by
  have hq : applyOutcome u.toSeq (outcome bus u) =
      ({ u.toSeq with delayedPc := tgt, delaySlots := 2 }, n) := by rw [hout]; rfl
  have htwo : (2 : BitVec 8) ≠ 0 := by decide
  have hturn := pass_in_slots h hq rfl (idle_of_decoding h) hrpt rfl htwo hround
  -- the transfer itself is not counted
  exact pending_of_turn hturn (if_pos (.inr hslots)) (idle_of_decoding h) hrpt

variable (hout : outcome bus u = .flow (.next n))

include hout

theorem pass_of_slot (hslots : u.delaySlots ≠ 0) :
    Counted bus u n { u.toSeq with pc := (u.pc + BitVec.ofNat 32 n) &&& 0xFFFF }
      (pass g bus s).1 :=
  pass_in_slots h (by rw [hout]; rfl) rfl (idle_of_decoding h) hrpt rfl hslots hround

theorem pending_of_slot (hn : 0 < n) (hlt : n < u.delaySlots.toNat) :
    Pending (cpuAfter bus u) (u.pc16 + BitVec.ofNat 16 n) (u.delaySlots.toNat - n) u.delayedPc
      (pass g bus s).1 := by
  have hslots : u.delaySlots ≠ 0 := by
    rintro h0
    simp [h0] at hlt
  have hleft : (u.delaySlots - BitVec.ofNat 8 n).toNat = u.delaySlots.toNat - n := by bv_omega
  rw [← hleft]
  refine pending_of_turn (pass_of_slot h hrpt hround hout hslots) ?_ (idle_of_decoding h) hrpt
  simp only [countSlots, hslots, or_self, if_false, hn, if_true, hlt]

theorem settles_of_last_slot (hn : 0 < n) (hlast : n = u.delaySlots.toNat) :
    Settles (cpuAfter bus u) (pass g bus s).1.toCpu ∧ (pass g bus s).1.pc16 = u.delayedPc := by
  have hslots : u.delaySlots ≠ 0 := by
    rintro h0
    simp [hlast, h0] at hn
  obtain ⟨hregs, cycles, insns, hseq⟩ := pass_of_slot h hrpt hround hout hslots
  have hge : ¬n < u.delaySlots.toNat := by omega
  simp only [countSlots, hslots, or_self, if_false, hn, if_true, hge] at hseq
  refine ⟨hregs, ?_⟩
  show (pass g bus s).1.pc.setWidth 16 = _
  rw [congrArg Seq.pc hseq]
  exact BitVec.setWidth_setWidth_of_le u.delayedPc (by omega)

end

/-! ### A run with the words that are due -/

/-- What a transfer still owes: the places of the words before its target. -/
structure Due where
  words : List Place
  target : Word
  deriving DecidableEq, Repr

/-- The fetch of `s` finds the words that are due from PC on. -/
def Due.FoundBy (d : Due) (s : State) : Prop :=
  ∀ i w, d.words[i]? = some w → placeAt s.toCpu (s.pc16 + BitVec.ofNat 16 i) = w

/-- The places of the two words behind an instruction of `n` words, with the page of `e`. -/
def behind (e : Cpu) (pc : Word) (n : Nat) : List Place :=
  (List.range 2).map fun i => placeAt e (pc + BitVec.ofNat 16 n + BitVec.ofNat 16 i)

/-- What is due after the instruction decoded in `u`. A transfer owes the two words behind it,
on the page the transfer was fetched from. -/
def dueAfter (bus : Bus) (u : State) : Option Due → Option Due
  | none => match outcome bus u with
    | .flow (.delayed tgt n) => some ⟨behind u.toCpu u.pc16 n, tgt⟩
    | _ => none
  | some d => match outcome bus u with
    | .flow (.next n) => if n < d.words.length then some ⟨d.words.drop n, d.target⟩ else none
    | _ => none

/-- The core, and what is due in it. -/
structure Tracked where
  state : State
  due : Option Due

/-- The core followed with what is due. -/
def tracker (g : Gates) : Machine Tracked Event Obs where
  step t e :=
    (⟨(step g t.state e).1, match e with
      | .pass bus => match decoding g bus t.state with
        | some u => dueAfter bus u t.due
        | none => t.due
      | .reset _ => none
      | _ => t.due⟩, (step g t.state e).2)

/-- The turn of a delay slot, decoded in `u`: the words of the instruction are the next that
are due, and the last one leads to the target. -/
structure InSlot (bus : Bus) (u s' : State) (d : Due) : Prop where
  words : ∃ n, outcome bus u = .flow (.next n) ∧ 0 < n ∧ n ≤ d.words.length ∧
    (∀ i < n, d.words[i]? = some (placeAt u.toCpu (u.pc16 + BitVec.ofNat 16 i))) ∧
    (n = d.words.length → s'.pc16 = d.target)
  opcode : ∃ w, d.words.head? = some w ∧ opAt u = w.word u.toCpu

/-- Nothing comes between a transfer and its target but the words that are due, in order. -/
structure InOrder (g : Gates) (t : Tracked) (e : Event) : Prop where
  /-- no interrupt is entered -/
  undisturbed : ∀ d ∈ t.due, ∀ k, Obs.taken k ∉ (step g t.state e).2
  slot : ∀ bus u, e = .pass bus → decoding g bus t.state = some u → ∀ d ∈ t.due,
    InSlot bus u (pass g bus t.state).1 d
  found : ∀ bus u, e = .pass bus → decoding g bus t.state = some u → ∀ d ∈ dueAfter bus u t.due,
    d.FoundBy (pass g bus t.state).1

/-- An instruction outside the slots: a transfer is not repeated, does not push into
registers, and is not the end of a block. -/
def RegularTransfer (u : State) : Outcome → Prop
  | .flow (.delayed _ n) => u.delaySlots = 0 ∧ u.rptActive = false ∧ PushesToMemory u.toCpu ∧
    ¬EndsRound u u.toCpu n
  | _ => True

/-- An instruction in the slots falls through within the words that are due. No interrupt is
replayed in front of it, it is not the end of a block, and it leaves XPC and PMST alone when
another word is due. -/
def RegularSlot (bus : Bus) (s u : State) (d : Due) : Outcome → Prop
  | .flow (.next n) => replayBit s = none ∧ 0 < n ∧ n ≤ d.words.length ∧
    ¬EndsRound u (cpuAfter bus u) n ∧
    (n < d.words.length → (cpuAfter bus u).xpc = u.xpc ∧ (cpuAfter bus u).pmst = u.pmst)
  | _ => False

instance (u : State) (o : Outcome) : Decidable (RegularTransfer u o) := by
  unfold RegularTransfer
  split <;> infer_instance

instance (bus : Bus) (s u : State) (d : Due) (o : Outcome) : Decidable (RegularSlot bus s u d o) := by
  unfold RegularSlot
  split <;> infer_instance

/-- One or the other, as a transfer is pending or not. -/
def RegularTurn (bus : Bus) (s u : State) : Option Due → Prop
  | none => RegularTransfer u (outcome bus u)
  | some d => RegularSlot bus s u d (outcome bus u)

instance (bus : Bus) (s u : State) : ∀ due, Decidable (RegularTurn bus s u due)
  | none => inferInstanceAs (Decidable (RegularTransfer _ _))
  | some _ => inferInstanceAs (Decidable (RegularSlot _ _ _ _ _))

def Regular (g : Gates) (t : Tracked) : Event → Prop
  | .pass bus => ∀ u ∈ decoding g bus t.state, RegularTurn bus t.state u t.due
  | _ => True

instance (g : Gates) (t : Tracked) : ∀ e, Decidable (Regular g t e)
  | .pass bus =>
    inferInstanceAs (Decidable (∀ u ∈ decoding g bus t.state, RegularTurn bus t.state u t.due))
  | .request _ _ _ | .wake | .poke _ _ | .reset _ => isTrue trivial

/-- The page of the target does not move the two words behind a transfer. -/
def PageKept (g : Gates) (t : Tracked) (e : Event) : Prop :=
  ∀ bus u, e = .pass bus → decoding g bus t.state = some u → t.due = none →
    ∀ tgt n, outcome bus u = .flow (.delayed tgt n) →
      behind { u.toCpu with xpc := targetPage (opAt u) u.toCpu } u.pc16 n =
        behind u.toCpu u.pc16 n

/-! ### What holds while words are due -/

structure Ahead (s : State) (d : Due) : Prop where
  idle : s.idle = false
  rpt : s.rptActive = false
  slots : s.delaySlots.toNat = d.words.length
  due : d.words ≠ []
  target : s.delayedPc = d.target
  found : d.FoundBy s

variable {d : Due}

theorem Due.FoundBy.congr {s' : State} (h : d.FoundBy s) (hpc : s'.pc16 = s.pc16)
    (hxpc : s'.xpc = s.xpc) (hpmst : s'.pmst = s.pmst) : d.FoundBy s' := by
  intro i w hi
  rw [hpc, placeAt_congr hxpc hpmst]
  exact h i w hi

theorem Ahead.congr {s' : State} (h : Ahead s d) (hseq : s'.toSeq = s.toSeq)
    (hxpc : s'.xpc = s.xpc) (hpmst : s'.pmst = s.pmst) : Ahead s' d where
  idle := by rw [hseq]; exact h.idle
  rpt := by rw [hseq]; exact h.rpt
  slots := by rw [hseq]; exact h.slots
  due := h.due
  target := by rw [hseq]; exact h.target
  found := h.found.congr (by rw [pc16, hseq]; rfl) hxpc hpmst

theorem Ahead.slots_ne (h : Ahead s d) : s.delaySlots ≠ 0 := by
  intro h0
  have hlen := h.slots
  rw [h0] at hlen
  exact h.due (List.eq_nil_of_length_eq_zero hlen.symm)

/-- The state in which a turn that replays nothing decodes. -/
theorem decoding_prepare (h : decoding g bus s = some u) (hreplay : replayBit s = none) :
    ∃ ifr, u = { prepare s with ifr := ifr } := by
  obtain ⟨-, hlc⟩ := decoding_eq_some h
  have hself : (replay bus s).1 = s := by simp only [replay, hreplay]
  rw [hself] at hlc
  obtain ⟨ifr, hifr⟩ := levelCheck_eq_none (congrArg Prod.snd hlc)
  exact ⟨ifr, (congrArg Prod.fst hlc).symm.trans hifr⟩

theorem RegularSlot.next {o : Outcome} (h : RegularSlot bus s u d o) :
    ∃ n, o = .flow (.next n) ∧ RegularSlot bus s u d (.flow (.next n)) := by
  unfold RegularSlot at h
  split at h
  · exact ⟨_, rfl, h⟩
  · cases h

theorem decoding_same (h : decoding g bus s = some u) (hreplay : replayBit s = none) :
    u.toSeq = s.toSeq ∧ u.xpc = s.xpc ∧ u.pmst = s.pmst := by
  obtain ⟨ifr, hifr⟩ := decoding_prepare h hreplay
  obtain ⟨data, last, prev, fiable, hprep⟩ := prepare_eq s
  rw [hifr, hprep]
  exact ⟨rfl, rfl, rfl⟩

/-- The words behind an instruction are found exactly where they are behind it as seen by the
core that goes on there. -/
theorem foundBy_behind {e : Cpu} {pc target : Word} (hpc : s.pc16 = pc + BitVec.ofNat 16 n) :
    Due.FoundBy ⟨behind e pc n, target⟩ s ↔ behind s.toCpu pc n = behind e pc n := by
  unfold Due.FoundBy behind
  rw [hpc]
  constructor
  · intro h
    apply List.map_congr_left
    intro i hi
    exact h i _ (by simp [List.mem_range.mp hi])
  · intro h i w hi
    rw [← h, List.getElem?_map, Option.map_eq_some_iff] at hi
    obtain ⟨j, hj, rfl⟩ := hi
    obtain ⟨hlt, hij⟩ := List.getElem?_eq_some_iff.mp hj
    rw [List.getElem_range] at hij
    rw [hij]

theorem dueAfter_eq_some (h : dueAfter bus u none = some d) :
    ∃ tgt n, outcome bus u = .flow (.delayed tgt n) ∧ d = ⟨behind u.toCpu u.pc16 n, tgt⟩ := by
  unfold dueAfter at h
  dsimp only at h
  split at h
  case h_1 tgt n hout => exact ⟨tgt, n, hout, (Option.some.inj h).symm⟩
  case h_2 => cases h

/-- A regular transfer is on its way to the target, and finds its two words exactly where the
page is kept. -/
theorem ahead_of_transfer (h : decoding g bus s = some u)
    (hout : outcome bus u = .flow (.delayed tgt n)) (hreg : RegularTransfer u (outcome bus u)) :
    (Due.FoundBy ⟨behind u.toCpu u.pc16 n, tgt⟩ (pass g bus s).1 ↔
      behind { u.toCpu with xpc := targetPage (opAt u) u.toCpu } u.pc16 n =
        behind u.toCpu u.pc16 n) ∧
    (Due.FoundBy ⟨behind u.toCpu u.pc16 n, tgt⟩ (pass g bus s).1 →
      Ahead (pass g bus s).1 ⟨behind u.toCpu u.pc16 n, tgt⟩) := by
  rw [hout] at hreg
  obtain ⟨hslots, hrpt, hpush, hround⟩ := hreg
  have hmoves : Moves (opAt u) u.toCpu (cpuAfter bus u) := moves_of_delayed hout hpush
  have hpend := pending_of_transfer h hrpt (by rw [EndsRound, hmoves.rea]; exact hround) hout hslots
  have hseen : behind (pass g bus s).1.toCpu u.pc16 n =
      behind { u.toCpu with xpc := targetPage (opAt u) u.toCpu } u.pc16 n := by
    refine List.map_congr_left fun _ _ => placeAt_congr ?_ ?_ _
    · exact hpend.xpc.trans hmoves.xpc
    · exact hpend.pmst.trans hmoves.pmst
  constructor
  · rw [← hseen, foundBy_behind hpend.pc16]
  · intro hfound
    exact ⟨hpend.idle, hpend.rpt, hpend.slots, by simp [behind], hpend.target, hfound⟩

/-- A regular slot takes the next words that are due, and leads on to the others or to the
target. -/
theorem ahead_of_slot (h : decoding g bus s = some u) (hahead : Ahead s d)
    (hreg : RegularSlot bus s u d (outcome bus u)) :
    InSlot bus u (pass g bus s).1 d ∧
      ∀ d' ∈ dueAfter bus u (some d), Ahead (pass g bus s).1 d' := by
  obtain ⟨n, hout, hreplay, hn, hle, hround, hkeeps⟩ := hreg.next
  obtain ⟨hseq, hxpc, hpmst⟩ := decoding_same h hreplay
  have hu : Ahead u d := hahead.congr hseq hxpc hpmst
  have hplaces : ∀ i < n, d.words[i]? = some (placeAt u.toCpu (u.pc16 + BitVec.ofNat 16 i)) := by
    intro i hi
    have hi' : i < d.words.length := by omega
    rw [List.getElem?_eq_getElem hi', hu.found i _ (List.getElem?_eq_getElem hi')]
  refine ⟨⟨⟨n, hout, hn, hle, hplaces, ?_⟩, ?_⟩, ?_⟩
  · intro hlast
    rw [← hu.target]
    exact (settles_of_last_slot h hu.rpt hround hout hn (hlast.trans hu.slots.symm)).2
  · refine ⟨placeAt u.toCpu u.pc16, ?_, progFetch_eq _ _⟩
    rw [List.head?_eq_getElem?]
    simpa using hplaces 0 hn
  · intro d' hd'
    simp only [dueAfter, hout] at hd'
    split at hd'
    · rename_i hlt
      cases hd'
      obtain ⟨hsame, hsame'⟩ := hkeeps hlt
      have hpend := pending_of_slot h hu.rpt hround hout hn (hu.slots ▸ hlt)
      refine ⟨hpend.idle, hpend.rpt, ?_, ?_, hpend.target.trans hu.target, ?_⟩
      · rw [hpend.slots, hu.slots, List.length_drop]
      · intro hnil
        have := List.drop_eq_nil_iff.mp hnil
        omega
      · intro i w hi
        rw [List.getElem?_drop] at hi
        rw [hpend.pc16, placeAt_congr (hpend.xpc.trans hsame) (hpend.pmst.trans hsame'),
          BitVec.add_assoc, ← BitVec.ofNat_add]
        exact hu.found _ w hi
    · cases hd'

/-! ### Whole runs -/

/-- A turn that executes something while a transfer is pending decodes an instruction: the
level check respects the slots. -/
theorem decoding_of_slots (g : Gates) (bus : Bus) (hexec : s.executes)
    (hslots : s.delaySlots ≠ 0) : ∃ u, decoding g bus s = some u := by
  have hnone : (levelCheck g bus (prepare (replay bus s).1)).2 = none := by
    cases hl : (levelCheck g bus (prepare (replay bus s).1)).2 with
    | none => rfl
    | some t =>
      obtain ⟨hpath, ⟨-, hguard⟩, hpre, -⟩ := levelCheck_eq_some hl
      rw [hpath] at hguard
      have hzero : t.pre.delaySlots = 0 := hguard.2
      rw [hpre, toSeq_dmaLevel, toSeq_prepare, delaySlots_replay] at hzero
      exact absurd hzero hslots
  refine ⟨_, if_pos ?_⟩
  rw [hexec, hnone]
  rfl

theorem interruptEx_in_slots (bus : Bus) (vec bit : Nat) (hidle : s.idle = false)
    (hslots : s.delaySlots ≠ 0) : (interruptEx bus s vec bit).2 = none := by
  cases hreq : (interruptEx bus s vec bit).2 with
  | none => rfl
  | some k =>
    obtain ⟨heq, hpath, ⟨-, hguard⟩, -⟩ := interruptEx_eq_some hreq
    rw [heq] at hguard
    rcases hpath with hpath | hpath <;> rw [hpath] at hguard
    · exact absurd hguard.2 hslots
    · exact absurd (hidle.symm.trans hguard) Bool.false_ne_true

/-- No interrupt is entered while words are due. -/
theorem undisturbed_of_regular {e : Event} (hahead : Ahead s d)
    (hreg : Regular g ⟨s, some d⟩ e) (k : Taken) : Obs.taken k ∉ (step g s e).2 := by
  intro hk
  rcases taken_of_step hk with ⟨bus, rfl, hpass⟩ | ⟨bus, vec, bit, rfl, hreq⟩
  · obtain ⟨hexec, -, hwhere⟩ := taken_of_pass hpass
    obtain ⟨u, hu⟩ := decoding_of_slots g bus hexec hahead.slots_ne
    obtain ⟨n, hout, hreplay, -⟩ := RegularSlot.next (hreg u hu)
    obtain ⟨-, hlc⟩ := decoding_eq_some hu
    obtain ⟨hstate, -⟩ := execSettled_of_decoding hu
    rcases hwhere with hr | hl | ⟨rpt, ht⟩
    · simp only [replay, hreplay] at hr
      cases hr
    · rw [hlc] at hl
      cases hl
    · -- the tick finds the transfer still pending
      have hseq : (executed bus u).toSeq = s.toSeq := by
        rw [← (decoding_same hu hreplay).1, executed, hout]
        rfl
      rw [hstate] at ht
      have hidle : (executed bus u).idle = false := by rw [hseq]; exact hahead.idle
      have hslots : (executed bus u).delaySlots ≠ 0 := by rw [hseq]; exact hahead.slots_ne
      have hnone : ∀ m, (timer bus (advance m { executed bus u with rptActive := rpt })).2 = none :=
        fun m => tick_in_slots m hidle hslots
      rw [hnone] at ht
      cases ht
  · rw [interruptEx_in_slots bus vec bit hahead.idle hahead.slots_ne] at hreq
    cases hreq

def OnCourse (t : Tracked) : Prop := ∀ d ∈ t.due, Ahead t.state d

variable {t : Tracked} {e : Event}

/-- In a regular turn on course the words come in order exactly where the page is kept. -/
theorem inOrder_iff (hcourse : OnCourse t) (hreg : Regular g t e) :
    InOrder g t e ↔ PageKept g t e := by
  obtain ⟨s, due⟩ := t
  cases due with
  | none =>
    constructor
    · intro h bus u he hu _ tgt n hout
      subst he
      have hdue : dueAfter bus u none = some ⟨behind u.toCpu u.pc16 n, tgt⟩ := by
        simp only [dueAfter, hout]
      exact (ahead_of_transfer hu hout (hreg u hu)).1.mp (h.found bus u rfl hu _ hdue)
    · intro h
      refine ⟨fun d hd => absurd hd (by simp), fun _ _ _ _ d hd => absurd hd (by simp), ?_⟩
      intro bus u he hu d hd
      subst he
      obtain ⟨tgt, n, hout, rfl⟩ := dueAfter_eq_some hd
      exact (ahead_of_transfer hu hout (hreg u hu)).1.mpr (h bus u rfl hu rfl tgt n hout)
  | some d =>
    have hahead : Ahead s d := hcourse d rfl
    constructor
    · intro _ bus u he hu hnone
      exact absurd hnone (by simp)
    · intro _
      refine ⟨fun _ _ => undisturbed_of_regular hahead hreg, ?_, ?_⟩
      · intro bus u he hu d' hd'
        subst he
        cases hd'
        exact (ahead_of_slot hu hahead (hreg u hu)).1
      · intro bus u he hu d' hd'
        subst he
        exact ((ahead_of_slot hu hahead (hreg u hu)).2 d' hd').found

theorem ahead_of_not_decoding (hahead : Ahead s d) (h : decoding g bus s = none) :
    Ahead (pass g bus s).1 d := by
  have hexec : s.executes = false := by
    cases hexec : s.executes with
    | false => rfl
    | true =>
      obtain ⟨u, hu⟩ := decoding_of_slots g bus hexec hahead.slots_ne
      rw [h] at hu
      cases hu
  unfold pass
  split
  · exact hahead
  rename_i hrun
  split
  · exact ⟨hahead.idle, hahead.rpt, hahead.slots, hahead.due, hahead.target, hahead.found⟩
  rename_i hff
  simp only [Bool.or_eq_true, Bool.not_eq_true', not_or, Bool.not_eq_false] at hrun
  rw [executes_iff.mpr ⟨hrun.1, by simpa using hrun.2, by simpa using hff⟩] at hexec
  cases hexec

theorem onCourse_step (hcourse : OnCourse t) (hreg : Regular g t e) (hpage : PageKept g t e) :
    OnCourse ((tracker g).step t e).1 := by
  have hfound := (inOrder_iff hcourse hreg).mpr hpage
  obtain ⟨s, due⟩ := t
  intro d hd
  cases e with
  | pass bus =>
    cases hdec : decoding g bus s with
    | none =>
      have hd : d ∈ due := by simpa only [tracker, hdec] using hd
      exact ahead_of_not_decoding (hcourse d hd) hdec
    | some u =>
      have hd : d ∈ dueAfter bus u due := by simpa only [tracker, hdec] using hd
      cases due with
      | none =>
        obtain ⟨tgt, n, hout, rfl⟩ := dueAfter_eq_some hd
        exact (ahead_of_transfer hdec hout (hreg u hdec)).2 (hfound.found bus u rfl hdec _ hd)
      | some d' => exact (ahead_of_slot hdec (hcourse d' rfl) (hreg u hdec)).2 d hd
  | request bus vec bit =>
    have hahead : Ahead s d := hcourse d hd
    obtain ⟨ifr, hifr⟩ := interruptEx_eq_none hahead.idle
      (interruptEx_in_slots bus vec bit hahead.idle hahead.slots_ne)
    show Ahead (interruptEx bus s vec bit).1 d
    rw [hifr]
    exact hahead.congr rfl rfl rfl
  | wake => exact { hcourse d hd with idle := rfl }
  | poke addr v =>
    refine (hcourse d hd).congr rfl ?_ ?_
    all_goals
      simp only [tracker, step]
      split <;> rfl
  | reset regs => cases hd

/-- Along every regular run the two words behind each delayed transfer are executed once, in
order and undisturbed before its target is reached, exactly when no transfer moves them by the
page of its target. -/
theorem delay_slots_iff (g : Gates) (s : State) (es : List Event)
    (hreg : (tracker g).Along (Regular g) ⟨s, none⟩ es) :
    (tracker g).Along (InOrder g) ⟨s, none⟩ es ↔ (tracker g).Along (PageKept g) ⟨s, none⟩ es :=
  Machine.Along.congr (I := OnCourse) (fun _ _ => inOrder_iff) (fun _ _ => onCourse_step)
    (fun _ hd => absurd hd (by simp)) hreg

/-- BD 0x1234; LD #0x55, A; NOP. -/
def nearBranch : List Word := [0xF273, 0x1234, 0xE855, 0xF495]

theorem delay_slots_iff_bd :
    (tracker ⟨false⟩).Along (Regular ⟨false⟩) ⟨boot nearBranch, none⟩
        (List.replicate 4 (.pass .quiet)) ∧
      ((tracker ⟨false⟩).Along (InOrder ⟨false⟩) ⟨boot nearBranch, none⟩
          (List.replicate 4 (.pass .quiet)) ↔
        (tracker ⟨false⟩).Along (PageKept ⟨false⟩) ⟨boot nearBranch, none⟩
          (List.replicate 4 (.pass .quiet))) :=
  have hreg : (tracker ⟨false⟩).Along (Regular ⟨false⟩) ⟨boot nearBranch, none⟩
      (List.replicate 4 (.pass .quiet)) := by
    decide +kernel
  ⟨hreg, delay_slots_iff ⟨false⟩ _ _ hreg⟩

/-- FBD 0x11234; LD #0x55, A; NOP. -/
def farBranch : List Word := [0xFA81, 0x1234, 0xE855, 0xF495]

/-- From page 0 the core goes to the target by two words of page 1, and A is not loaded. -/
theorem fbd_takes_slots_of_target_page :
    (boot farBranch).prog 0x0FF82 = 0xE855 ∧
    executions ((core ⟨false⟩).trace (boot farBranch) (List.replicate 3 (.pass .quiet))) =
      [(0xFF80, 0xFA81), (0xFF82, 0xF495), (0xFF83, 0xF495)] ∧
    ((core ⟨false⟩).final (boot farBranch) (List.replicate 3 (.pass .quiet))).pc = 0x1234 ∧
    ((core ⟨false⟩).final (boot farBranch) (List.replicate 3 (.pass .quiet))).a = 0 := by
  decide +kernel

end Qosmo.C54x
