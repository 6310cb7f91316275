import Qosmo.Grgsm.Basic

/-!
# Qosmo.Grgsm.Blocks

The AGCH and SDCCH blocks of the gr-gsm layer, as a store of their own.

The layer interleaves these blocks with system information, SACCH, FACCH and the guard of a
dedicated channel. None of that decides which AGCH or SDCCH block is presented: `Blocks` has one
AGCH block at most and a list of SDCCH blocks, and does with them what the layer does with its
flags, its buffer and its ring (`blocks_run`).
-/

namespace Qosmo.Grgsm

open Running

/-- The blocks waiting, and what decides when they are presented. `dedicated` is the kind of the
dedicated channel, once it is known. -/
structure Blocks where
  pending : Bool
  dTaskD : Word
  dBurstD : Word
  tick : BitVec 32
  lastRa : Byte
  rachConfFn : Byte → BitVec 32
  dedicated : Option Bool
  agch : Option (List Byte × BitVec 32)
  sdcch : List SdcchEntry
  lastFn : BitVec 32

def blocks (s : Grgsm) : Blocks where
  pending := s.pending
  dTaskD := s.dTaskD
  dBurstD := s.dBurstD
  tick := s.tick
  lastRa := s.lastRa
  rachConfFn := s.rachConfFn
  dedicated := if s.sdcchSsSet then some s.sdcchCh8 else none
  agch := if s.agchValid then some (s.agchBuf, s.agchTick) else none
  sdcch := s.sdcch.contents sdcchRingN
  lastFn := s.sdcchLastFn

/-- Is it an AGCH or an SDCCH block? -/
def Shown.isBlock : Shown → Bool
  | .agch _ => true
  | .sdcch _ => true
  | _ => false

namespace Blocks

def agchBlock (b : Blocks) (lastRach : BitVec 32) (l2 : List Byte) : List Byte :=
  let buf := block l2
  let memo := if lastRach ≠ 0 then lastRach else b.rachConfFn (buf.getD 7 0)
  if l2.getD 2 0 = 0x3F ∧ 10 ≤ l2.length ∧ memo ≠ 0 then writeReference buf memo else buf

/-- Does the AGCH block waiting stay, against a message of type `mt`? -/
def keeps (b : Blocks) (mt : Byte) : Bool :=
  match b.agch with
  | some (buf, since) => !isImm mt && isImm (buf.getD 2 0) && decide (b.tick - since ≤ agchTtlTicks)
  | none => false

def feedAgch (b : Blocks) (lastRach : BitVec 32) (l2 : List Byte) : Blocks :=
  if b.keeps (l2.getD 2 0) then b else { b with agch := some (b.agchBlock lastRach l2, b.tick) }

/-- The list behind a new block: a full one loses its oldest. -/
def room (q : List SdcchEntry) : List SdcchEntry := if sdcchRingN ≤ q.length then q.tail else q

def feedSdcch (b : Blocks) (l2 : List Byte) (fn : BitVec 32) : Blocks :=
  if fn ≠ 0 ∧ fn = b.lastFn then b
  else { b with lastFn := fn, sdcch := room b.sdcch ++ [⟨block l2, fn, b.tick, 0⟩] }

/-- The first and the last frame in which an SDCCH block is presented. -/
def frames (b : Blocks) : Nat × Nat :=
  match b.dedicated with
  | some true => (0, 31)
  | some false => (22, 39)
  | none => (0, 39)

/-- Presenting from a list, in frame `tc`: the old blocks go, then the first one is presented. -/
def present (tick : BitVec 32) (burst : Word) (frames : Nat × Nat) (tc : Nat) :
    List SdcchEntry → List SdcchEntry × Option (List Byte)
  | [] => ([], none)
  | e :: q =>
    if sdcchTtlTicks < tick - e.tick then present tick burst frames tc q
    else if tc < frames.1 ∨ frames.2 < tc then (e :: q, none)
    else
      (if 3 ≤ burst ∨ sdcchMaxPresent ≤ e.reps + 1 then q else { e with reps := e.reps + 1 } :: q,
        some e.l2)

/-- What is left of the SDCCH blocks after presenting, and the block presented. -/
def kept (b : Blocks) (tc : Nat) : List SdcchEntry × Option (List Byte) :=
  present b.tick b.dBurstD b.frames tc b.sdcch

def expire (b : Blocks) : Blocks :=
  match b.agch with
  | some (_, since) => if agchTtlTicks < b.tick - since then { b with agch := none } else b
  | none => b

theorem expire_sdcch (b : Blocks) : b.expire.sdcch = b.sdcch := by
  unfold expire
  split
  · split <;> rfl
  · rfl

def allc (b : Blocks) (tc : Nat) : Blocks × List Shown :=
  let b := b.expire
  match if ccchFrame tc then b.agch else none with
  | some (buf, _) => (b, [.agch buf])
  | none => ({ b with sdcch := (b.kept tc).1 }, ((b.kept tc).2.map Shown.sdcch).toList)

def answer (b : Blocks) (env : Env) : Blocks × List Shown :=
  if b.dTaskD = allcDspTask then b.allc (tc51 env.l1sFn) else (b, [])

def frameTick (b : Blocks) (env : Env) : Blocks × List Shown :=
  if !b.pending then (b, [])
  else
    let r := ({ b with tick := b.tick + 1 }).answer env
    ({ r.1 with pending := false }, r.2)

def reset (b : Blocks) : Blocks := { b with agch := none, dedicated := none }

def machine : Machine Blocks Event Shown where
  step b e :=
    match e with
    | .pageWritten v taskD _ =>
      (if !bitSet v 1 then if v = 0 then b.reset else b
        else { b with dTaskD := taskD, pending := true }, [])
    | .burstWritten dBurstD => ({ b with dBurstD := dBurstD &&& 3 }, [])
    | .rachWritten dRach => ({ b with lastRa := (dRach >>> 8).setWidth 8 }, [])
    | .rachConf fn => ({ b with rachConfFn := Function.update b.rachConfFn b.lastRa fn }, [])
    | .dcchSet ch8 _ => ({ b with dedicated := some ch8 }, [])
    | .gsmtap lastRach buf =>
      (match channel buf with
        | some .agch => b.feedAgch lastRach (buf.drop 16)
        | some .sdcch4 => b.feedSdcch (buf.drop 16) (Dcch.be32 buf 8)
        | _ => b, [])
    | .frameTick env => b.frameTick env
    | _ => (b, [])

end Blocks

/-! ### Feeds -/

theorem ring_dvd : sdcchRingN ∣ 2 ^ 32 := by decide

variable {s : Grgsm}

@[simp] theorem length_blocks : s.blocks.sdcch.length = s.sdcch.depth := length_contents

theorem blocks_feedAgch (lastRach : BitVec 32) (l2 : List Byte) :
    (s.feedAgch lastRach l2).blocks = s.blocks.feedAgch lastRach l2 := by
  have hkeeps : s.blocks.keeps (l2.getD 2 0) =
      (!isImm (l2.getD 2 0) && s.agchValid && isImm (s.agchBuf.getD 2 0) &&
        decide (s.tick - s.agchTick ≤ agchTtlTicks)) := by
    unfold Blocks.keeps blocks
    cases s.agchValid <;> simp
  unfold feedAgch Blocks.feedAgch
  rw [hkeeps]
  split <;> rfl

theorem room_ring :
    (if sdcchRingN ≤ s.sdcch.depth then s.sdcch.pop else s.sdcch).contents sdcchRingN
      = Blocks.room s.blocks.sdcch := by
  unfold Blocks.room
  rw [length_blocks]
  split
  case isTrue hfull =>
    have hne : s.sdcch.tail ≠ s.sdcch.head := by
      intro heq
      have hnil := length_blocks (s := s)
      rw [show s.blocks.sdcch = [] from contents_of_eq heq] at hnil
      exact absurd (hfull.trans_eq hnil.symm) (by decide)
    rw [show s.blocks.sdcch = _ from contents_pop ring_dvd hne]
    rfl
  case isFalse hroom => rfl

theorem length_room {q : List SdcchEntry} (hq : q.length ≤ sdcchRingN) :
    (Blocks.room q).length < sdcchRingN := by
  unfold Blocks.room
  have hpos : 0 < sdcchRingN := by decide
  split
  · rw [List.length_tail]
    omega
  · omega

theorem blocks_feedSdcch (hs : s.sdcch.depth ≤ sdcchRingN) (l2 : List Byte) (fn : BitVec 32) :
    (s.feedSdcch l2 fn).blocks = s.blocks.feedSdcch l2 fn := by
  unfold feedSdcch Blocks.feedSdcch
  rw [show s.blocks.lastFn = s.sdcchLastFn from rfl]
  split
  case isTrue => rfl
  case isFalse =>
    dsimp only
    have hdepth := length_room (length_blocks.trans_le hs)
    rw [← room_ring, length_contents] at hdepth
    unfold blocks
    rw [contents_push ring_dvd (by decide) hdepth, room_ring]
    rfl

/-! ### Presenting -/

theorem blocks_frames : s.blocks.frames = sdcchFrames s.sdcchSsSet s.sdcchCh8 := by
  unfold Blocks.frames blocks
  cases s.sdcchSsSet <;> cases s.sdcchCh8 <;> rfl

theorem blocks_kept (tc : Nat) :
    s.blocks.kept tc = Blocks.present s.tick s.dBurstD (sdcchFrames s.sdcchSsSet s.sdcchCh8) tc
      (s.sdcch.contents sdcchRingN) := by
  rw [Blocks.kept, blocks_frames]
  rfl

theorem blocks_presented (hs : s.sdcch.depth ≤ sdcchRingN) (hne : s.sdcch.tail ≠ s.sdcch.head) :
    s.presented.blocks =
      let e := s.sdcch.front sdcchRingN
      let q := s.sdcch.pop.contents sdcchRingN
      { s.blocks with
        sdcch :=
          if 3 ≤ s.dBurstD ∨ sdcchMaxPresent ≤ e.reps + 1 then q
          else { e with reps := e.reps + 1 } :: q } := by
  have hset := fun e => contents_setFront ring_dvd hne hs e
  unfold presented
  dsimp only
  split
  case isTrue =>
    have hpop := fun e => contents_pop (r := s.sdcch.setFront sdcchRingN e) ring_dvd hne
    unfold blocks
    dsimp only
    rw [(List.cons.inj ((hpop _).symm.trans (hset _))).2]
  case isFalse =>
    unfold blocks
    dsimp only
    rw [hset]

/-- The loop over the ring is the recursion over its list, and does not run out of turns. -/
theorem presentSdcch_spec (tc : Nat) {fuel : Nat} (hs : s.sdcch.depth ≤ sdcchRingN)
    (hfuel : s.sdcch.depth ≤ fuel) :
    (presentSdcch tc fuel s).1.blocks = { s.blocks with sdcch := (s.blocks.kept tc).1 } ∧
      (presentSdcch tc fuel s).2 = (s.blocks.kept tc).2 := by
  induction fuel generalizing s with
  | zero =>
    have hnil : s.sdcch.contents sdcchRingN = [] :=
      List.eq_nil_of_length_eq_zero (by rw [length_contents]; omega)
    rw [blocks_kept, hnil, Blocks.present, ← hnil]
    exact ⟨rfl, rfl⟩
  | succ fuel ih =>
    rw [presentSdcch]
    dsimp only
    by_cases hempty : s.sdcch.tail = s.sdcch.head
    · have hnil : s.sdcch.contents sdcchRingN = [] := contents_of_eq hempty
      rw [if_pos hempty, blocks_kept, hnil, Blocks.present, ← hnil]
      exact ⟨rfl, rfl⟩
    have hcons := contents_pop ring_dvd hempty
    have hcount := depth_pop hempty
    rw [if_neg hempty, blocks_kept, hcons, Blocks.present]
    by_cases hold : sdcchTtlTicks < s.tick - (s.sdcch.front sdcchRingN).tick
    · rw [if_pos hold, if_pos hold]
      have hrest := ih (s := { s with sdcch := s.sdcch.pop }) (by dsimp only; omega)
        (by dsimp only; omega)
      rw [blocks_kept] at hrest
      exact hrest
    rw [if_neg hold, if_neg hold]
    split
    case isTrue =>
      rw [← hcons]
      exact ⟨rfl, rfl⟩
    case isFalse => exact ⟨blocks_presented hs hempty, rfl⟩

/-! ### Everything else -/

/-- A step that presents no AGCH or SDCCH block and leaves those waiting alone. -/
def Quiet (s : Grgsm) (r : Grgsm × List Shown) : Prop :=
  r.1.blocks = s.blocks ∧ r.2.filter Shown.isBlock = []

@[simp] theorem blocks_rotateSi : s.rotateSi.blocks = s.blocks := by
  unfold rotateSi
  split <;> rfl

@[simp] theorem blocks_feedSi (l2 : List Byte) : (s.feedSi l2).blocks = s.blocks := by
  unfold feedSi
  dsimp only
  generalize (if 3 ≤ l2.length ∧ l2.getD 1 0 = 0x06 then siSlot (l2.getD 2 0) else none) = slot
  cases slot with
  | none => rfl
  | some i =>
    dsimp only
    split <;> rfl

@[simp] theorem blocks_feedSacch (l2 : List Byte) : (s.feedSacch l2).blocks = s.blocks := by
  unfold feedSacch
  split <;> rfl

@[simp] theorem blocks_pollTchCfg (cfg : Option (BitVec 32)) :
    (s.pollTchCfg cfg).blocks = s.blocks := by
  cases cfg with
  | none => rfl
  | some seq =>
    rw [pollTchCfg]
    split <;> split <;> rfl

@[simp] theorem blocks_dcchSiGuard : s.dcchSiGuard.2.blocks = s.blocks := by
  unfold dcchSiGuard
  split
  · rfl
  · split <;> rfl

theorem quiet_dispatchTchDl : s.Quiet s.dispatchTchDl := by
  unfold dispatchTchDl
  split <;> exact ⟨rfl, rfl⟩

theorem quiet_dispatchTchSacch : s.Quiet s.dispatchTchSacch := by
  unfold dispatchTchSacch
  split <;> exact ⟨rfl, rfl⟩

@[simp] theorem blocks_sdcchDone : s.sdcchDone.blocks = s.blocks := by
  unfold sdcchDone
  split <;> rfl

@[simp] theorem blocks_nextSi : s.nextSi.blocks = s.blocks := by
  unfold nextSi
  split
  · exact blocks_rotateSi
  · rfl

/-- The end of `dispatch_allc`. -/
theorem quiet_presentOther (tc : Nat) : s.Quiet (s.presentOther tc) := by
  unfold presentOther
  dsimp only
  split
  · exact ⟨blocks_sdcchDone, rfl⟩
  split
  · exact ⟨blocks_sdcchDone, rfl⟩
  · refine ⟨blocks_nextSi.trans blocks_sdcchDone, ?_⟩
    dsimp only
    split <;> rfl

theorem quiet_dcchSacchPresent (env : Env) :
    (s.dcchSacchPresent env).filter Shown.isBlock = [] := by
  unfold dcchSacchPresent
  dsimp only
  split <;> rfl

theorem quiet_background (env : Env) : s.Quiet (s.background env) := by
  unfold background
  split
  · exact ⟨rfl, rfl⟩
  dsimp only
  split
  · refine ⟨Eq.trans ?_ blocks_dcchSiGuard, rfl⟩
    dsimp only
    split
    · exact blocks_rotateSi
    · rfl
  split
  · exact ⟨blocks_dcchSiGuard, quiet_dcchSacchPresent env⟩
  · exact ⟨blocks_dcchSiGuard, rfl⟩

/-! ### The answer of a frame -/

theorem presentAgch_spec (tc : Nat) :
    (s.presentAgch tc).1.blocks = s.blocks.expire ∧
      (s.presentAgch tc).2
        = (if ccchFrame tc then s.blocks.expire.agch else none).map Prod.fst := by
  unfold presentAgch Blocks.expire
  by_cases hvalid : s.agchValid
  · have hagch : s.blocks.agch = some (s.agchBuf, s.agchTick) := if_pos hvalid
    rw [if_pos hvalid, hagch]
    dsimp only
    rw [show s.blocks.tick = s.tick from rfl]
    split
    · exact ⟨rfl, by simp⟩
    · exact ⟨rfl, by simp [hagch]⟩
  · have hagch : s.blocks.agch = none := if_neg hvalid
    rw [if_neg hvalid, hagch]
    exact ⟨rfl, by simp [hagch]⟩

section

variable (env : Env) (hs : s.sdcch.depth ≤ sdcchRingN)

include hs

theorem dispatchAllc_spec :
    ((s.dispatchAllc env).1.blocks, (s.dispatchAllc env).2.filter Shown.isBlock)
      = s.blocks.allc (tc51 env.l1sFn) := by
  unfold dispatchAllc Blocks.allc
  generalize tc51 env.l1sFn = tc
  dsimp only
  obtain ⟨hagch, hshown⟩ := presentAgch_spec (s := s) tc
  generalize s.presentAgch tc = r at hagch hshown
  obtain ⟨s', agch⟩ := r
  dsimp only at hagch hshown ⊢
  have hdepth : s'.sdcch.depth ≤ sdcchRingN := by
    rw [← length_blocks, hagch, Blocks.expire_sdcch, length_blocks]
    exact hs
  rw [← hagch] at hshown ⊢
  cases hfirst : (if ccchFrame tc then s'.blocks.agch else none) with
  | some kept =>
    rw [hfirst] at hshown
    rw [hshown]
    rfl
  | none =>
    rw [hfirst] at hshown
    rw [hshown]
    obtain ⟨hkept, hpresented⟩ := presentSdcch_spec tc hdepth (le_refl s'.sdcch.depth)
    dsimp only
    rw [← hkept, ← hpresented]
    generalize presentSdcch tc s'.sdcch.depth s' = r'
    obtain ⟨s'', sdcch⟩ := r'
    cases sdcch with
    | some l2 => rfl
    | none =>
      obtain ⟨hblocks, hnone⟩ := quiet_presentOther (s := s'') tc
      exact Prod.ext hblocks hnone

theorem answer_spec :
    ((s.answer env).1.blocks, (s.answer env).2.filter Shown.isBlock) = s.blocks.answer env := by
  unfold answer Blocks.answer
  rw [show s.blocks.dTaskD = s.dTaskD from rfl]
  by_cases hallc : s.dTaskD = allcDspTask
  · rw [if_pos hallc, if_pos hallc]
    exact dispatchAllc_spec env hs
  rw [if_neg hallc, if_neg hallc]
  split
  · exact Prod.ext quiet_dispatchTchDl.1 quiet_dispatchTchDl.2
  split
  · exact Prod.ext quiet_dispatchTchSacch.1 quiet_dispatchTchSacch.2
  · rfl

theorem frameTick_spec :
    ((s.frameTick env).1.blocks, (s.frameTick env).2.filter Shown.isBlock)
      = s.blocks.frameTick env := by
  unfold frameTick Blocks.frameTick
  dsimp only
  obtain ⟨hblocks, hnone⟩ := quiet_background (s := s.pollTchCfg env.tchCfg) env
  rw [blocks_pollTchCfg] at hblocks
  generalize (s.pollTchCfg env.tchCfg).background env = r at hblocks hnone
  obtain ⟨s', shown⟩ := r
  dsimp only at hblocks hnone ⊢
  have hdepth : s'.sdcch.depth ≤ sdcchRingN := by
    rw [← length_blocks, hblocks, length_blocks]
    exact hs
  rw [← hblocks, show s'.blocks.pending = s'.pending from rfl]
  split
  case isTrue => rw [hnone]
  case isFalse =>
    have hanswer := answer_spec (s := { s' with tick := s'.tick + 1 }) env hdepth
    rw [List.filter_append, hnone, List.nil_append]
    exact congrArg (fun r : Blocks × List Shown => ({ r.1 with pending := false }, r.2)) hanswer

end

/-! ### Runs -/

theorem Blocks.present_length (tick : BitVec 32) (burst : Word) (frames : Nat × Nat) (tc : Nat)
    (q : List SdcchEntry) : (present tick burst frames tc q).1.length ≤ q.length := by
  induction q with
  | nil => exact le_refl 0
  | cons e q ih =>
    rw [present]
    split
    · exact ih.trans (Nat.le_succ _)
    split
    · exact le_refl _
    · dsimp only
      split
      · exact Nat.le_succ _
      · exact le_refl _

theorem Blocks.allc_length (b : Blocks) (tc : Nat) :
    (b.allc tc).1.sdcch.length ≤ b.sdcch.length := by
  unfold allc
  dsimp only
  rw [← expire_sdcch b]
  split
  · exact le_refl _
  · exact present_length _ _ _ tc _

theorem Blocks.frameTick_length (b : Blocks) (env : Env) :
    (b.frameTick env).1.sdcch.length ≤ b.sdcch.length := by
  unfold frameTick answer
  split
  · exact le_refl _
  dsimp only
  split
  · exact allc_length { b with tick := b.tick + 1 } _
  · exact le_refl _

theorem Blocks.feedSdcch_length {b : Blocks} (hb : b.sdcch.length ≤ sdcchRingN) (l2 : List Byte)
    (fn : BitVec 32) : (b.feedSdcch l2 fn).sdcch.length ≤ sdcchRingN := by
  unfold feedSdcch
  split
  · exact hb
  · rw [List.length_append]
    exact length_room hb

theorem Blocks.length_step {b : Blocks} (hb : b.sdcch.length ≤ sdcchRingN) (e : Event) :
    (machine.step b e).1.sdcch.length ≤ sdcchRingN := by
  cases e with
  | pageWritten v taskD taskU =>
    dsimp only [machine]
    split
    · split <;> exact hb
    · exact hb
  | gsmtap lastRach buf =>
    dsimp only [machine]
    split
    · unfold feedAgch
      split <;> exact hb
    · exact feedSdcch_length hb _ _
    · exact hb
  | frameTick env => exact (frameTick_length b env).trans hb
  | burstWritten _ | rachWritten _ | rachConf _ | dcchSet _ _ | dcchActive | dcchIsTch _
  | sch => exact hb

/-- One step of the layer is one step of its blocks. -/
theorem blocks_step (hs : s.sdcch.depth ≤ sdcchRingN) (e : Event) :
    ((machine.step s e).1.blocks, (machine.step s e).2.filter Shown.isBlock)
      = Blocks.machine.step s.blocks e := by
  cases e with
  | pageWritten v taskD taskU =>
    dsimp only [machine, Blocks.machine, pageWritten]
    split
    · split <;> rfl
    · rfl
  | gsmtap lastRach buf =>
    dsimp only [machine, Blocks.machine, gsmtapReadable]
    cases channel buf with
    | none => rfl
    | some c =>
      cases c with
      | bcch => exact congrArg (·, []) (blocks_feedSi _)
      | agch => exact congrArg (·, []) (blocks_feedAgch _ _)
      | sdcch4 => exact congrArg (·, []) (blocks_feedSdcch hs _ _)
      | sacch => exact congrArg (·, []) (blocks_feedSacch _)
      | tchF | tchAcch => rfl
  | frameTick env => exact frameTick_spec env hs
  | burstWritten _ | rachWritten _ | rachConf _ | dcchSet _ _ | dcchActive | dcchIsTch _
  | sch => rfl

/-- **Refinement.** Along every run, the AGCH and SDCCH blocks the layer presents are those the
store of blocks presents. -/
theorem blocks_run (hs : s.sdcch.depth ≤ sdcchRingN) (es : List Event) :
    (machine.final s es).sdcch.depth ≤ sdcchRingN ∧
      (machine.final s es).blocks = Blocks.machine.final s.blocks es ∧
      (machine.trace s es).filter Shown.isBlock = Blocks.machine.trace s.blocks es := by
  rw [← Machine.filterObs_trace, ← Machine.filterObs_final machine Shown.isBlock]
  refine Machine.abstraction (M := machine.filterObs Shown.isBlock) (N := Blocks.machine)
    (I := fun s => s.sdcch.depth ≤ sdcchRingN) blocks (fun s e hs _ => ?_) hs
    (Machine.along_true s es)
  have hstep := blocks_step hs e
  refine ⟨?_, hstep⟩
  have hlength := Blocks.length_step (length_blocks.trans_le hs) e
  rw [← hstep] at hlength
  exact length_blocks.symm.trans_le hlength

end Qosmo.Grgsm
