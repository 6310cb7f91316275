import Qosmo.C54x.Frame
import Qosmo.C54x.Steps

/-!
# Qosmo.C54x.Entry

Where an interrupt entry leads: the first instruction of the service routine is the
one at the vector, IPTR * 128 + vec * 4, exactly the served request is cleared, and
INTM is set (`Lands`).

The replay and the requests of the peripherals land there unless the frame itself is
pushed onto PMST or IFR (`FrameHarmless`). The level check does not: it reports one
word to `c54x_run`, which advances PC by that word as behind any instruction, so the
service routine starts one word late. It lands at the vector only where the turn moves
PC some other way (`LevelLands`): a running single repeat keeps PC, and a block repeat
may loop back to an RSA that happens to be the vector.
-/

namespace Qosmo.C54x

open BitVec State

variable {g : Gates} {bus : Bus} {s : State} {t : Taken} {c : Ctx} {vec bit : Nat} {ret : Word}
  {always : Bool}

/-! ### The entry sequence -/

theorem vectorAt_inj (p q : Word) (vec : Nat) :
    vectorAt p vec = vectorAt q vec ↔ p >>> Pmst.iptrShift = q >>> Pmst.iptrShift := by
  constructor
  · intro h
    apply eq_of_toNat_eq
    have hp := (p >>> Pmst.iptrShift).isLt
    have hq := (q >>> Pmst.iptrShift).isLt
    have h := congrArg BitVec.toNat h
    simp only [vectorAt, toNat_ofNat] at h
    omega
  · intro h
    rw [vectorAt, h, vectorAt]

theorem clearBit_setBit (r : Word) (n : Nat) : clearBit (setBit r n) n = clearBit r n := by
  unfold clearBit setBit
  rw [and_or_distrib_right]
  simp

theorem enter_pc : (enter c s vec bit ret always).pc =
    vectorAt (stored (frameWords c s.toCpu ret always) 0x1D s.pmst) vec :=
  congrArg (vectorAt · vec)
    (stored_pushFrame (f := Cpu.pmst) (fun _ _ _ _ => pmst_dataWrite) fun _ _ => rfl)

theorem enter_brc : (enter c s vec bit ret always).brc =
    stored (frameWords c s.toCpu ret always) 0x1A s.brc :=
  stored_pushFrame (f := Cpu.brc) (fun _ _ _ _ => brc_dataWrite) fun _ _ => rfl

theorem enter_rsa : (enter c s vec bit ret always).rsa =
    stored (frameWords c s.toCpu ret always) 0x1B s.rsa :=
  stored_pushFrame (f := Cpu.rsa) (fun _ _ _ _ => rsa_dataWrite) fun _ _ => rfl

theorem enter_rea : (enter c s vec bit ret always).rea =
    stored (frameWords c s.toCpu ret always) 0x1C s.rea :=
  stored_pushFrame (f := Cpu.rea) (fun _ _ _ _ => rea_dataWrite) fun _ _ => rfl

theorem enter_seq : (enter c s vec bit ret always).rptActive = s.rptActive ∧
    (enter c s vec bit ret always).rptCount = s.rptCount ∧
    (enter c s vec bit ret always).rptbActive = s.rptbActive := ⟨rfl, rfl, rfl⟩

theorem enter_ifr : (enter c s vec bit ret always).ifr =
    acked (frameWords c s.toCpu ret always) (clearBit s.ifr bit) := acked_pushFrame

theorem enter_intm : (enter c s vec bit ret always).intm :=
  bitSet_setBit_self _ _ (by decide)

/-- The entry goes to the vector if no frame word changes IPTR. -/
theorem enter_pc_eq_vector : (enter c s vec bit ret always).pc = s.vector vec ↔
    ∀ w ∈ frameWords c s.toCpu ret always, w.1 = 0x1D →
      w.2 >>> Pmst.iptrShift = s.pmst >>> Pmst.iptrShift := by
  rw [enter_pc]
  exact (vectorAt_inj _ _ vec).trans (iptr_stored c s.toCpu ret always s.pmst)

/-- Only the served request is cleared if no frame word acknowledges another. -/
theorem enter_ifr_eq_clearBit : (enter c s vec bit ret always).ifr = clearBit s.ifr bit ↔
    ∀ w ∈ frameWords c s.toCpu ret always, w.1 = 0x01 → w.2 &&& clearBit s.ifr bit = 0 := by
  rw [enter_ifr]
  exact acked_eq_self _ _

/-- What an entry is meant to do: go to the vector, clear the request, mask interrupts. -/
structure Lands (t : Taken) (entered : State) (next : BitVec 32) : Prop where
  vector : next = t.pre.vector t.vec
  served : entered.ifr = clearBit t.pre.ifr t.bit
  masked : entered.intm = true

/-- The frame changes neither the vector nor another request: a word that lands on PMST
has the IPTR that is there, one that lands on IFR acknowledges nothing else. -/
def FrameHarmless (c : Ctx) (s : Cpu) (ret : Word) (always : Bool) (bit : Nat) : Prop :=
  ∀ w ∈ frameWords c s ret always,
    (w.1 = 0x1D → w.2 >>> Pmst.iptrShift = s.pmst >>> Pmst.iptrShift) ∧
    (w.1 = 0x01 → w.2 &&& clearBit s.ifr bit = 0)

instance (c : Ctx) (s : Cpu) (ret : Word) (always : Bool) (bit : Nat) :
    Decidable (FrameHarmless c s ret always bit) :=
  List.decidableBAll _ _

/-- The entry sequence lands at the vector if the frame is harmless. It is made from a
state `r` that may already have latched the request. -/
theorem enter_lands {path : Path} {r : State} (hsp : r.sp = s.sp) (hxpc : r.xpc = s.xpc)
    (hpmst : r.pmst = s.pmst) (hifr : clearBit r.ifr bit = clearBit s.ifr bit) :
    Lands ⟨path, vec, bit, s⟩ (enter c r vec bit ret always) (enter c r vec bit ret always).pc ↔
      FrameHarmless c s.toCpu ret always bit := by
  have hws : frameWords c r.toCpu ret always = frameWords c s.toCpu ret always := by
    have hgarde : gardeSp c r.toCpu ret = gardeSp c s.toCpu ret := by
      simp only [gardeSp, hxpc]
    simp only [frameWords, hgarde, hsp, hxpc]
  have hvec : (enter c r vec bit ret always).pc = r.vector vec ↔ _ := enter_pc_eq_vector
  have hack : (enter c r vec bit ret always).ifr = clearBit r.ifr bit ↔ _ := enter_ifr_eq_clearBit
  rw [hws, hpmst, show r.vector vec = s.vector vec from congrArg (vectorAt · vec) hpmst] at hvec
  rw [hws, hifr] at hack
  constructor
  · rintro ⟨hpc, hserved, -⟩ w hw
    exact ⟨hvec.mp hpc w hw, hack.mp hserved w hw⟩
  · intro h
    exact ⟨hvec.mpr fun w hw => (h w hw).1, hack.mpr fun w hw => (h w hw).2, enter_intm⟩

/-! ### Replay -/

/-- A replay sets INTM, so nothing else is taken before the instruction of its turn. -/
theorem quiet_of_replay (h : (replay bus s).2 = some t) : Quiet g bus (replay bus s).1 := by
  have hintm : (replay bus s).1.intm := by
    unfold replay at h ⊢
    split at h
    · exact enter_intm
    · cases h
  exact ⟨Or.inl hintm, fun _ _ => Or.inl hintm⟩

/-- A replayed interrupt is the first thing of its turn, and the instruction it leads to
is the next. -/
theorem pass_of_replay (hexec : s.executes) (h : (replay bus s).2 = some t) :
    ∃ op os, (pass g bus s).2 = .taken t :: .exec (replay bus s).1.pc op :: os := by
  obtain ⟨-, hobs⟩ := execSettled_of_quiet (g := g) (quiet_of_replay h)
  rw [pass_of_executes hexec]
  simp only [h, instruction, hobs]
  exact ⟨_, _, rfl⟩

theorem replay_lands (h : (replay bus s).2 = some t) :
    Lands t (replay bus s).1 (replay bus s).1.pc ↔
      FrameHarmless (s.ctx bus) s.toCpu s.pc16 true t.bit := by
  obtain ⟨-, ht, henter⟩ := replay_eq_some h
  rw [henter, ht]
  exact enter_lands rfl rfl rfl rfl

/-! ### Requests -/

theorem interruptEx_lands (h : (interruptEx bus s vec bit).2 = some t) :
    Lands t (interruptEx bus s vec bit).1 (interruptEx bus s vec bit).1.pc ↔
      FrameHarmless (s.ctx bus) s.toCpu s.resumePc true bit := by
  obtain ⟨ht, -, -, idle, henter⟩ := interruptEx_eq_some h
  rw [henter, ht]
  -- the latch is what the entry clears
  exact enter_lands rfl rfl rfl (clearBit_setBit ..)

/-! ### The level check -/

/-- The turn in which the level check takes an interrupt lands at the vector only if the
repeat logic keeps PC there or moves it there: a single repeat with repetitions left, or
a block that loops back to the vector. `d` is the core at the check. -/
def KeepsVector (c : Ctx) (d : State) (vec : Nat) : Prop :=
  if d.rptActive = true ∧ d.rptCount ≠ 0 then
    ∀ w ∈ frameWords c d.toCpu d.pc16 false, w.1 = 0x1D →
      w.2 >>> Pmst.iptrShift = d.pmst >>> Pmst.iptrShift
  else
    d.rptbActive = true ∧
    stored (frameWords c d.toCpu d.pc16 false) 0x1A d.brc ≠ 0 ∧
    d.pc16 ≤ stored (frameWords c d.toCpu d.pc16 false) 0x1C d.rea ∧
    stored (frameWords c d.toCpu d.pc16 false) 0x1C d.rea <
      (vectorAt (stored (frameWords c d.toCpu d.pc16 false) 0x1D d.pmst) vec + 1).setWidth 16 ∧
    (stored (frameWords c d.toCpu d.pc16 false) 0x1B d.rsa).setWidth 32 = d.vector vec

/-- The same, with a frame that acknowledges no other request. -/
def LevelLands (c : Ctx) (d : State) (vec bit : Nat) : Prop :=
  KeepsVector c d vec ∧
  ∀ w ∈ frameWords c d.toCpu d.pc16 false, w.1 = 0x01 → w.2 &&& clearBit d.ifr bit = 0

variable {execPc : Word} {ds : BitVec 8}

/-- PC behind a turn of one word without delay slots or a single repeat: the block goes
round again, or PC stays where the turn left it. -/
theorem afterSlots_pc {v : State} (hslots : v.delaySlots = 0) (hrpt : v.rptActive = false) :
    (afterSlots execPc ds 1 v).pc =
      if v.rptbActive ∧ v.brc ≠ 0 ∧ execPc ≤ v.rea ∧ v.rea < v.pc16
      then v.rsa.setWidth 32 else v.pc := by
  unfold afterSlots
  rw [countSlots_of_zero hslots]
  unfold blockRepeat blockEnd
  by_cases hloop : v.rptbActive ∧ execPc ≤ v.rea ∧ v.rea < v.pc16
  · obtain ⟨hact, hle, hlt⟩ := hloop
    rw [if_pos (by simpa [hrpt, hact] using ⟨hle, hlt⟩)]
    by_cases hbrc : v.brc = 0
    · rw [if_neg (by simp [hbrc]), if_neg (by simp [hbrc])]
    · rw [if_pos hbrc, if_pos ⟨hact, hbrc, hle, hlt⟩]
  · rw [if_neg, if_neg]
    · rintro ⟨hact, -, hle, hlt⟩
      exact hloop ⟨hact, hle, hlt⟩
    · simp only [Bool.and_eq_true, decide_eq_true_eq]
      rintro ⟨⟨hact, -⟩, ⟨-, hle⟩, hlt⟩
      exact hloop ⟨hact, hle, hlt⟩

/-- Where the turn of a level entry leaves PC. -/
def levelNext (execPc : Word) (e : State) : BitVec 32 :=
  if e.rptActive = true ∧ e.rptCount ≠ 0 then e.pc
  else if e.rptbActive = true ∧ e.brc ≠ 0 ∧ execPc ≤ e.rea ∧
      e.rea < ((e.pc + 1) &&& 0xFFFF).setWidth 16
    then e.rsa.setWidth 32 else (e.pc + 1) &&& 0xFFFF

/-- With INTM set, no tick disturbs the rest of a turn of one word. -/
theorem complete_pc_of_intm {v : State} (hidle : v.idle = false)
    (hslots : v.delaySlots = 0) (hrpt : v.rptActive = false) (hintm : v.intm) :
    (complete bus execPc ds 1 v).1.pc =
      if v.rptbActive ∧ v.brc ≠ 0 ∧ execPc ≤ v.rea ∧
          v.rea < ((v.pc + 1) &&& 0xFFFF).setWidth 16
        then v.rsa.setWidth 32 else (v.pc + 1) &&& 0xFFFF := by
  have hoff : tickEnters (advance 1 v) = false := by
    simp [tickEnters, show (advance 1 v).intm from hintm]
  have htick : (timer bus (advance 1 v)).2 = none := timer_of_not_enters hidle hoff
  obtain ⟨data, psc, ifr, cycles, insns, heq⟩ :=
    complete_eq execPc ds hidle htick
  rw [heq]
  exact afterSlots_pc (v := advance 1 v) hslots hrpt

theorem repeatOrComplete_pc_of_intm {u : State}
    (hidle : u.idle = false) (hslots : u.delaySlots = 0) (hintm : u.intm) :
    (repeatOrComplete bus execPc ds u.rptActive 1 u).1.pc = levelNext execPc u := by
  unfold repeatOrComplete levelNext
  cases hact : u.rptActive with
  | false =>
    rw [if_neg (by simp), if_neg (by simp)]
    exact complete_pc_of_intm hidle hslots hact hintm
  | true =>
    rw [if_pos (by simp [hidle]), if_neg (by simp)]
    by_cases hcount : u.rptCount = 0
    · rw [if_neg (by simp [hcount]), if_neg (by simp [hcount])]
      exact complete_pc_of_intm (v := { u with rptActive := false }) hidle hslots rfl hintm
    · rw [if_pos hcount, if_pos ⟨rfl, hcount⟩]

/-- Nothing in front of the level check touches the sequencing fields. -/
theorem toSeq_of_level (h : (levelCheck g bus (prepare s)).2 = some t) : t.pre.toSeq = s.toSeq := by
  rw [(levelCheck_eq_some h).2.2.1, toSeq_dmaLevel, toSeq_prepare]

section

variable (hexec : s.executes = true) (hreplay : replay bus s = (s, none))
  (h : (levelCheck g bus (prepare s)).2 = some t)

include hexec hreplay h

/-- The turn of a level entry, from the single repeat on: it goes on from the entry with
the sequencing fields and the block registers as they are there. -/
theorem pass_eq_of_level :
    ∃ u : State, u.toSeq = (levelCheck g bus (prepare s)).1.toSeq ∧
      SameBlock (levelCheck g bus (prepare s)).1 u ∧ u.idle = false ∧ u.delaySlots = 0 ∧
      u.intm ∧
      (pass g bus s).1 = (repeatOrComplete bus s.pc16 s.delaySlots u.rptActive 1 u).1 := by
  obtain ⟨hpath, ⟨-, hguard⟩, -, henter⟩ := levelCheck_eq_some h
  have hseq := toSeq_of_level h
  rw [hpath] at hguard
  generalize he : (levelCheck g bus (prepare s)).1 = e at henter ⊢
  -- the entry keeps everything in the sequencing fields but PC
  have hidle : e.idle = false := by
    rw [henter]
    exact (congrArg Seq.idle hseq).trans (executes_iff.mp hexec).2.1
  have hslots : e.delaySlots = 0 := by
    rw [henter]
    exact hguard.2
  have hintm : e.intm := by
    rw [henter]
    exact enter_intm
  have hrpt : s.rptActive = e.rptActive := by
    rw [henter]
    exact (congrArg Seq.rptActive hseq).symm
  obtain ⟨a, b, st0, hover⟩ := overflowPass_eq (prepare s).toCpu e.toCpu
  refine ⟨{ e with a := a, b := b, st0 := st0 }, rfl, ⟨rfl, rfl, rfl, rfl⟩, hidle, hslots, hintm, ?_⟩
  obtain ⟨hpc, hds, hwas⟩ := prepare_seq s
  rw [hrpt] at hwas
  rw [pass_of_executes hexec, hreplay]
  simp only [instruction, execSettled, execOne, h, he, hover, hwas, hpc, hds]

theorem pass_of_level :
    (pass g bus s).1.pc = levelNext s.pc16 (levelCheck g bus (prepare s)).1 := by
  obtain ⟨u, hseq, ⟨hbrc, hrsa, hrea, -⟩, hidle, hslots, hintm, heq⟩ :=
    pass_eq_of_level hexec hreplay h
  rw [heq, repeatOrComplete_pc_of_intm hidle hslots hintm]
  simp only [levelNext, hseq, hbrc, hrsa, hrea]

end

/-- Vectors are four words apart: the word behind one is no vector. -/
theorem succ_vectorAt_ne (p q : Word) (vec : Nat) :
    (vectorAt p vec + 1) &&& 0xFFFF ≠ vectorAt q vec := by
  intro h
  have h := congrArg BitVec.toNat h
  simp only [vectorAt, toNat_and, toNat_add, toNat_ofNat] at h
  rw [show BitVec.toNat (65535 : BitVec 32) = 2 ^ 16 - 1 from rfl,
    show BitVec.toNat (1 : BitVec 32) = 1 from rfl, Nat.and_two_pow_sub_one_eq_mod] at h
  omega

theorem setWidth_and_mask (x : BitVec 32) : (x &&& 0xFFFF).setWidth 16 = x.setWidth 16 := by
  rw [setWidth_and]
  exact and_allOnes

/-- The turn of a level entry leaves PC at the vector exactly where `LevelLands` says. -/
theorem levelNext_enter (c : Ctx) (d : State) (vec bit : Nat) :
    Lands ⟨.level, vec, bit, d⟩ (enter c d vec bit d.pc16 false)
      (levelNext d.pc16 (enter c d vec bit d.pc16 false)) ↔ LevelLands c d vec bit := by
  have hnext : levelNext d.pc16 (enter c d vec bit d.pc16 false) = d.vector vec ↔
      KeepsVector c d vec := by
    unfold levelNext KeepsVector
    rw [enter_seq.1, enter_seq.2.1, enter_seq.2.2, enter_brc, enter_rsa, enter_rea,
      setWidth_and_mask]
    by_cases hrpt : d.rptActive ∧ d.rptCount ≠ 0
    · rw [if_pos hrpt, if_pos hrpt]
      exact enter_pc_eq_vector
    · rw [if_neg hrpt, if_neg hrpt, enter_pc]
      split
      · rename_i hloop
        exact ⟨fun hv => ⟨hloop.1, hloop.2.1, hloop.2.2.1, hloop.2.2.2, hv⟩,
          fun hk => hk.2.2.2.2⟩
      · rename_i hloop
        exact ⟨fun hv => absurd hv (succ_vectorAt_ne _ _ vec),
          fun hk => absurd ⟨hk.1, hk.2.1, hk.2.2.1, hk.2.2.2.1⟩ hloop⟩
  constructor
  · rintro ⟨hvec, hserved, -⟩
    exact ⟨hnext.mp hvec, enter_ifr_eq_clearBit.mp hserved⟩
  · rintro ⟨hkeeps, hack⟩
    exact ⟨hnext.mpr hkeeps, enter_ifr_eq_clearBit.mpr hack, enter_intm⟩

theorem level_lands (hexec : s.executes) (hreplay : replay bus s = (s, none))
    (h : (levelCheck g bus (prepare s)).2 = some t) :
    Lands t (levelCheck g bus (prepare s)).1 (pass g bus s).1.pc ↔
      LevelLands (t.pre.ctx bus) t.pre t.vec t.bit := by
  obtain ⟨hpath, -, hpre, henter⟩ := levelCheck_eq_some h
  have hpc16 : s.pc16 = t.pre.pc16 :=
    congrArg (fun q : Seq => q.pc.setWidth 16) (toSeq_of_level h).symm
  rw [pass_of_level hexec hreplay h, henter, hpc16]
  obtain ⟨path, vec, bit, d⟩ := t
  cases hpath
  exact levelNext_enter _ d vec bit

/-- The level check only takes an interrupt in a turn without a replay. -/
theorem level_of_pass (h : Obs.taken t ∈ (pass g bus s).2) (hp : t.path = .level) :
    s.executes ∧ replay bus s = (s, none) ∧ (levelCheck g bus (prepare s)).2 = some t := by
  obtain ⟨hexec, -, hr | hl | ⟨rpt, ht⟩⟩ := taken_of_pass h
  · rw [replay_path hr] at hp
    cases hp
  · cases hr : (replay bus s).2 with
    | some t' =>
      rw [(quiet_of_replay (g := g) hr).levelCheck] at hl
      cases hl
    | none =>
      have hself : replay bus s = (s, none) := by
        unfold replay at hr ⊢
        split at hr
        · cases hr
        · rfl
      rw [hself] at hl
      exact ⟨hexec, hself, hl⟩
  · exact absurd hp (interruptEx_path (timer_eq_some ht).2).2

/-- **Where each path lands.** A turn that replays an interrupt executes its next
instruction at the vector, and a request of a peripheral leaves PC there, with the served
request cleared and INTM set, exactly if the frame is harmless. The turn of a level entry
leaves PC there exactly if the repeat logic does. -/
theorem entry_lands_iff (g : Gates) (bus : Bus) (s : State) :
    (∀ t, Obs.taken t ∈ (pass g bus s).2 → t.path = .level →
      (Lands t (levelCheck g bus (prepare s)).1 (pass g bus s).1.pc ↔
        LevelLands (t.pre.ctx bus) t.pre t.vec t.bit)) ∧
    (∀ t, Obs.taken t ∈ (pass g bus s).2 → t.path = .replay →
      ∃ pc op os, (pass g bus s).2 = .taken t :: .exec pc op :: os ∧
        (Lands t (replay bus s).1 pc ↔
          FrameHarmless (s.ctx bus) s.toCpu s.pc16 true t.bit)) ∧
    (∀ vec bit t, (interruptEx bus s vec bit).2 = some t →
      (Lands t (interruptEx bus s vec bit).1 (interruptEx bus s vec bit).1.pc ↔
        FrameHarmless (s.ctx bus) s.toCpu s.resumePc true bit)) := by
  refine ⟨?_, ?_, ?_⟩
  · intro t ht hp
    obtain ⟨hexec, hself, hl⟩ := level_of_pass ht hp
    exact level_lands hexec hself hl
  · intro t ht hp
    obtain ⟨bus', hbus, hexec, hr⟩ := replay_of_step (g := g) (e := .pass bus) ht hp
    cases hbus
    obtain ⟨op, os, hobs⟩ := pass_of_replay (g := g) hexec hr
    exact ⟨_, op, os, hobs, replay_lands hr⟩
  · intro vec bit t ht
    exact interruptEx_lands ht

/-- RSBX INTM has been executed; the frame interrupt is requested. -/
theorem request_lands :
    ∃ t, (interruptEx .quiet (pass ⟨false⟩ .quiet (boot [0xF6BB])).1 28 12).2 = some t ∧
      Lands t (interruptEx .quiet (pass ⟨false⟩ .quiet (boot [0xF6BB])).1 28 12).1
        (interruptEx .quiet (pass ⟨false⟩ .quiet (boot [0xF6BB])).1 28 12).1.pc := by
  obtain ⟨t, ht⟩ := Option.isSome_iff_exists.mp
    (show (interruptEx .quiet (pass ⟨false⟩ .quiet (boot [0xF6BB])).1 28 12).2.isSome = true by
      decide +kernel)
  exact ⟨t, ht, ((entry_lands_iff ⟨false⟩ .quiet _).2.2 28 12 t ht).mpr (by decide +kernel)⟩

/-! ### A level entry, word by word -/

/-- The DMA interrupt line is up. -/
def Bus.dmaUp : Bus := { Bus.quiet with dmaLine := true }

/-- STM #0x00A8, PMST (vectors at 0x80); RSBX INTM; NOP. -/
def dmaProgram : List Word := [0x771D, 0x00A8, 0xF6BB, 0xF495]

/-- Vector 30 is at 0x00F8; the service routine is started at 0x00F9. -/
theorem level_entry_one_late :
    ∃ t, Obs.taken t ∈ (core ⟨true⟩).trace (boot dmaProgram)
        [.pass .quiet, .pass .quiet, .pass .dmaUp, .pass .quiet] ∧
      t.path = .level ∧ t.pre.vector t.vec = 0x00F8 ∧
      executions ((core ⟨true⟩).trace (boot dmaProgram)
        [.pass .quiet, .pass .quiet, .pass .dmaUp, .pass .quiet]) =
        [(0xFF80, 0x771D), (0xFF82, 0xF6BB), (0x00F9, 0xF495)] := by
  obtain ⟨t, ht, hp⟩ := exists_of_hasEntry
    (fun t => t.path == .level && t.pre.vector t.vec == 0x00F8)
    ((core ⟨true⟩).trace (boot dmaProgram)
      [.pass .quiet, .pass .quiet, .pass .dmaUp, .pass .quiet]) (by decide +kernel)
  simp only [Bool.and_eq_true, beq_iff_eq] at hp
  exact ⟨t, ht, hp.1, hp.2, by decide +kernel⟩

end Qosmo.C54x
