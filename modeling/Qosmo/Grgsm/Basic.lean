import Qosmo.Dcch.Tap
import Qosmo.Lib.Running

/-!
# Qosmo.Grgsm.Basic

The downlink blocks of the gr-gsm layer 1 (`hw/arm/calypso/l1-grgsm/calypso_l1_grgsm.c`).

This layer stands in for the DSP. gr-gsm decodes the radio outside of QEMU and sends its blocks as
GSMTAP datagrams; `gsmtap_readable` sorts them by channel and keeps them. On every frame,
`calypso_l1_frame_tick` answers the task the firmware has written: it presents one of the blocks
kept, in the frames of the 51-multiframe where its channel is.

The state is the part of `g` that concerns these blocks. The synchronisation burst, the speech
frames and the key are in the modules `Sync`, `Speech` and `Cipher`; the uplink, the power
measurements and the words of the read pages are left out. What a tick reads from elsewhere (the
firmware's frame counter, the TRX's, the word `a_cd` that the firmware writes too, the shared file
of the TCH configuration) comes with the event.
-/

namespace Qosmo

structure SdcchEntry where
  l2 : List Byte
  fn : BitVec 32
  tick : BitVec 32
  reps : Word
  deriving Repr, DecidableEq

/-- The fields of `g` about the downlink blocks. The ring `sdcch_ring` and its two indices are
`sdcch`; `tchCfgLast` is the static variable of `poll_tch_cfg`. -/
structure Grgsm where
  pending : Bool
  dTaskD : Word
  dBurstD : Word
  tick : BitVec 32
  siSet : Nat → List Byte
  siHave : Nat → Bool
  siBuf : List Byte
  siValid : Bool
  siRr : Nat
  siRot : BitVec 32
  sacchBuf : List Byte
  sacchHave : Bool
  sacchReal : Bool
  sbValid : Bool
  agchBuf : List Byte
  agchValid : Bool
  agchTick : BitVec 32
  sdcch : Running SdcchEntry
  sdcchLastFn : BitVec 32
  sdcchValid : Bool
  sdcchSs : Nat
  sdcchSsSet : Bool
  sdcchCh8 : Bool
  dcchGuardArmed : Bool
  dcchGuardTick : BitVec 32
  dcchIsTch : Bool
  facchDl : List Byte
  facchDlValid : Bool
  facchDlTick : BitVec 32
  tsacchDl : List Byte
  tsacchDlValid : Bool
  tsacchDlTick : BitVec 32
  tchCfgValid : Bool
  tchCfgLast : BitVec 32
  lastRa : Byte
  rachConfFn : Byte → BitVec 32

namespace Grgsm

def zeros : List Byte := List.replicate 23 0

def init : Grgsm where
  pending := false
  dTaskD := 0
  dBurstD := 0
  tick := 0
  siSet := fun _ => zeros
  siHave := fun _ => false
  siBuf := zeros
  siValid := false
  siRr := 0
  siRot := 0
  sacchBuf := zeros
  sacchHave := false
  sacchReal := false
  sbValid := false
  agchBuf := zeros
  agchValid := false
  agchTick := 0
  sdcch := ⟨fun _ => ⟨zeros, 0, 0, 0⟩, 0, 0⟩
  sdcchLastFn := 0
  sdcchValid := false
  sdcchSs := 0
  sdcchSsSet := false
  sdcchCh8 := false
  dcchGuardArmed := false
  dcchGuardTick := 0
  dcchIsTch := false
  facchDl := zeros
  facchDlValid := false
  facchDlTick := 0
  tsacchDl := zeros
  tsacchDlValid := false
  tsacchDlTick := 0
  tchCfgValid := false
  tchCfgLast := 0
  lastRa := 0
  rachConfFn := fun _ => 0

def siSlots : Nat := 10
def agchTtlTicks : BitVec 32 := 100
def sdcchTtlTicks : BitVec 32 := 4000
def sdcchMaxPresent : Word := 8
def sdcchRingN : Nat := 32
def dcchGuardTicks : BitVec 32 := 108
def tchTtlTicks : BitVec 32 := 26
def dulDspTask : Word := 12
def tchtDspTask : Word := 13
def tchaDspTask : Word := 14
def allcDspTask : Word := 24

/-! ### Blocks received -/

/-- A block as the layer keeps it: cut or filled up to 23 bytes. -/
def block (l2 : List Byte) : List Byte := l2.take 23 ++ List.replicate (23 - l2.length) 0x2B

def isImm (mt : Byte) : Bool := mt == 0x3F || mt == 0x3A || mt == 0x3B

/-- The frame memorised for the access attempt with reference `ra`: the one in the firmware's own
memory, else the one confirmed. 0 is none. -/
def memo (s : Grgsm) (lastRach : BitVec 32) (ra : Byte) : BitVec 32 :=
  if lastRach ≠ 0 then lastRach else s.rachConfFn ra

/-- Bytes 8 and 9 of an immediate assignment, from the frame of the attempt. -/
def writeReference (buf : List Byte) (memo : BitVec 32) : List Byte :=
  let t1p : Word := (memo / 1326 % 32).setWidth 16
  let t2 : Byte := (memo % 26).setWidth 8
  let t3 : Byte := (memo % 51).setWidth 8
  (buf.set 8 ((t1p <<< 3).setWidth 8 ||| ((t3 >>> 3) &&& 7))).set 9
    (((t3 &&& 7) <<< 5) ||| (t2 &&& 0x1F))

def agchBlock (s : Grgsm) (lastRach : BitVec 32) (l2 : List Byte) : List Byte :=
  let buf := block l2
  let memo := s.memo lastRach (buf.getD 7 0)
  if l2.getD 2 0 = 0x3F ∧ 10 ≤ l2.length ∧ memo ≠ 0 then writeReference buf memo else buf

/-- `feed_agch`. An assignment that still can be presented is not replaced by another message. -/
def feedAgch (s : Grgsm) (lastRach : BitVec 32) (l2 : List Byte) : Grgsm :=
  if !isImm (l2.getD 2 0) && s.agchValid && isImm (s.agchBuf.getD 2 0) &&
      decide (s.tick - s.agchTick ≤ agchTtlTicks) then s
  else { s with agchBuf := s.agchBlock lastRach l2, agchValid := true, agchTick := s.tick }

/-- `feed_sdcch`. A full ring loses its oldest block. -/
def feedSdcch (s : Grgsm) (l2 : List Byte) (fn : BitVec 32) : Grgsm :=
  if fn ≠ 0 ∧ fn = s.sdcchLastFn then s
  else
    let ring := if sdcchRingN ≤ s.sdcch.depth then s.sdcch.pop else s.sdcch
    { s with
      sdcchLastFn := fn
      sdcch := ring.push sdcchRingN ⟨block l2, fn, s.tick, 0⟩
      sdcchValid := true }

/-- Does the block carry a SYSTEM INFORMATION 5 or 6? -/
def si56 (l2 : List Byte) : Bool :=
  (List.range' 2 6).any fun i =>
    decide (i + 1 < min l2.length 23) && l2.getD i 0 == 0x06 &&
      (l2.getD (i + 1) 0 == 0x1D || l2.getD (i + 1) 0 == 0x1E)

def feedSacch (s : Grgsm) (l2 : List Byte) : Grgsm :=
  if si56 l2 then { s with sacchBuf := block l2, sacchHave := true, sacchReal := true } else s

def siSlot (mt : Byte) : Option Nat :=
  if 0x19 ≤ mt ∧ mt ≤ 0x1E then some (mt.toNat - 0x19)
  else if mt = 0x02 then some 6
  else if mt = 0x03 then some 7
  else if mt = 0x07 then some 8
  else if mt = 0x00 then some 9
  else none

/-- The SYSTEM INFORMATION 6 that `feed_si` makes from a SYSTEM INFORMATION 3. -/
def forgedSi6 (l2 : List Byte) : List Byte :=
  [0x00, 0x00, 0x03, 0x03, 0x2D, 0x06, 0x1E] ++ (l2.drop 3).take 7 ++ [0x0F, 0xFF] ++
    List.replicate 7 0x2B

/-- `feed_si`. Slot 2 is the SYSTEM INFORMATION 3; it fills the SACCH until a real one comes. -/
def feedSi (s : Grgsm) (l2 : List Byte) : Grgsm :=
  let slot := if 3 ≤ l2.length ∧ l2.getD 1 0 = 0x06 then siSlot (l2.getD 2 0) else none
  let s :=
    match slot with
    | some i =>
      { s with
        siSet := Function.update s.siSet i (block l2)
        siHave := Function.update s.siHave i true }
    | none => s
  let s :=
    if slot = some 2 ∧ 10 ≤ l2.length ∧ ¬ s.sacchReal then
      { s with sacchBuf := forgedSi6 l2, sacchHave := true }
    else s
  { s with siBuf := block l2, siValid := true }

/-- The channels of `gsmtap_readable`. -/
inductive Channel where
  | bcch
  | agch
  | sdcch4
  | sacch
  | tchF
  | tchAcch
  deriving Repr, DecidableEq

/-- The channel a datagram is for, none if it is ignored. -/
def channel (buf : List Byte) : Option Channel :=
  let sub := buf.getD 12 0
  let pd := buf.getD 17 0
  let mt := buf.getD 18 0
  if buf.length < 19 ∨ buf.getD 2 0 ≠ 0x01 then none
  else if sub = 0x01 then if pd = 0x06 ∧ (siSlot mt).isSome then some .bcch else none
  else if sub = 0x04 then
    if pd = 0x06 ∧ (mt = 0x3F ∨ mt = 0x39 ∨ mt = 0x3A ∨ mt = 0x21 ∨ mt = 0x22 ∨ mt = 0x24) then
      some .agch
    else none
  else if sub = 0x07 then some .sdcch4
  else if sub = 0x87 then if 7 ≤ buf.length - 16 then some .sacch else none
  else if sub = 0x09 then some .tchF
  else if sub = 0x89 then some .tchAcch
  else none

/-- `gsmtap_readable`, for one datagram. -/
def gsmtapReadable (s : Grgsm) (lastRach : BitVec 32) (buf : List Byte) : Grgsm :=
  let l2 := buf.drop 16
  match channel buf with
  | some .bcch => s.feedSi l2
  | some .agch => s.feedAgch lastRach l2
  | some .sdcch4 => s.feedSdcch l2 (Dcch.be32 buf 8)
  | some .sacch => s.feedSacch l2
  | some .tchF => { s with facchDl := block l2, facchDlValid := true, facchDlTick := s.tick }
  | some .tchAcch => { s with tsacchDl := block l2, tsacchDlValid := true, tsacchDlTick := s.tick }
  | none => s

/-! ### Blocks presented -/

inductive Shown where
  | agch (l2 : List Byte)
  | sdcch (l2 : List Byte)
  /-- the SACCH, in answer to a task or on the dedicated channel -/
  | sacch (l2 : List Byte)
  | si (l2 : List Byte)
  /-- the header alone, with the CRC error bits -/
  | crcError
  | facch (l2 : List Byte)
  | tsacch (l2 : List Byte)
  deriving Repr, DecidableEq

/-- What a tick reads from outside: the firmware's frame counter, the TRX's, the bit `B_BLUD` of
`a_cd`, the first word of the shared TCH configuration if it could be read. -/
structure Env where
  l1sFn : BitVec 32
  trxFn : BitVec 32
  aCdBlud : Bool
  tchCfg : Option (BitVec 32)
  deriving Repr, DecidableEq

def tc51 (fn : BitVec 32) : Nat := fn.toNat % 51

/-- The frames of the CCCH in which an AGCH block is presented. -/
def ccchFrame (tc : Nat) : Prop := (6 ≤ tc ∧ tc ≤ 9) ∨ (12 ≤ tc ∧ tc ≤ 19)

instance (tc : Nat) : Decidable (ccchFrame tc) := inferInstanceAs (Decidable (_ ∨ _))

/-- The first and the last frame of the SDCCH. Unless a dedicated channel was announced, it may be
of either kind. -/
def sdcchFrames (dedicated ch8 : Bool) : Nat × Nat :=
  match dedicated, ch8 with
  | true, true => (0, 31)
  | true, false => (22, 39)
  | false, _ => (0, 39)

/-- `rotate_si`: the next slot that holds a block. -/
def rotateSi (s : Grgsm) : Grgsm :=
  match (List.range' 1 siSlots).find? fun k => s.siHave ((s.siRr + k) % siSlots) with
  | some k => { s with siRr := (s.siRr + k) % siSlots }
  | none => s

def dcchSiGuard (s : Grgsm) : Bool × Grgsm :=
  if !s.dcchGuardArmed then (false, s)
  else if dcchGuardTicks < s.tick - s.dcchGuardTick then (false, { s with dcchGuardArmed := false })
  else (true, s)

/-- The first part of `dispatch_allc`: the AGCH block, unless it is too old. -/
def presentAgch (s : Grgsm) (tc : Nat) : Grgsm × Option (List Byte) :=
  if s.agchValid then
    if agchTtlTicks < s.tick - s.agchTick then ({ s with agchValid := false }, none)
    else (s, if ccchFrame tc then some s.agchBuf else none)
  else (s, none)

/-- One block of the SDCCH was presented: it goes after its last burst, or if it was presented too
often. -/
def presented (s : Grgsm) : Grgsm :=
  let e := s.sdcch.front sdcchRingN
  let ring := s.sdcch.setFront sdcchRingN { e with reps := e.reps + 1 }
  let ring := if 3 ≤ s.dBurstD ∨ sdcchMaxPresent ≤ e.reps + 1 then ring.pop else ring
  { s with sdcch := ring, sdcchValid := if ring.tail = ring.head then false else s.sdcchValid }

/-- The loop of `dispatch_allc` over the ring of the SDCCH. Every turn drops a block, so `fuel`
turns are enough for `fuel` blocks. -/
def presentSdcch (tc : Nat) : Nat → Grgsm → Grgsm × Option (List Byte)
  | 0, s => (s, none)
  | fuel + 1, s =>
    let e := s.sdcch.front sdcchRingN
    if s.sdcch.tail = s.sdcch.head then (s, none)
    else if sdcchTtlTicks < s.tick - e.tick then
      presentSdcch tc fuel { s with sdcch := s.sdcch.pop }
    else
      let frames := sdcchFrames s.sdcchSsSet s.sdcchCh8
      if tc < frames.1 ∨ frames.2 < tc then (s, none) else (s.presented, some e.l2)

/-- An empty ring takes the flag of the SDCCH back. -/
def sdcchDone (s : Grgsm) : Grgsm :=
  if s.sdcch.tail = s.sdcch.head then { s with sdcchValid := false } else s

/-- The system information of the next four bursts. -/
def nextSi (s : Grgsm) : Grgsm :=
  if s.dBurstD = 0 then { s.rotateSi with siBuf := s.rotateSi.siSet s.rotateSi.siRr } else s

/-- The end of `dispatch_allc`, with no AGCH or SDCCH block to present. -/
def presentOther (s : Grgsm) (tc : Nat) : Grgsm × List Shown :=
  let s := s.sdcchDone
  if s.sacchHave ∧ 42 ≤ tc ∧ tc ≤ 46 then (s, [.sacch s.sacchBuf])
  else if s.sdcchValid then (s, [])
  else
    let s := s.nextSi
    (s, if s.dcchGuardArmed then [.crcError] else [.si s.siBuf])

def dispatchAllc (s : Grgsm) (env : Env) : Grgsm × List Shown :=
  let tc := tc51 env.l1sFn
  let (s, agch) := s.presentAgch tc
  match agch with
  | some l2 => (s, [.agch l2])
  | none =>
    let (s, sdcch) := presentSdcch tc s.sdcch.depth s
    match sdcch with
    | some l2 => (s, [.sdcch l2])
    | none => s.presentOther tc

def tchFresh (s : Grgsm) (valid : Bool) (tick : BitVec 32) : Bool :=
  valid && decide (s.tick - tick ≤ tchTtlTicks)

/-- `dispatch_tch_dl`, but for the speech frames. -/
def dispatchTchDl (s : Grgsm) : Grgsm × List Shown :=
  if s.tchFresh s.facchDlValid s.facchDlTick then
    ({ s with facchDlValid := false }, [.facch s.facchDl])
  else (s, [])

def dispatchTchSacch (s : Grgsm) : Grgsm × List Shown :=
  if s.tchFresh s.tsacchDlValid s.tsacchDlTick then
    ({ s with tsacchDlValid := false }, [.tsacch s.tsacchDl])
  else (s, [])

/-- The frame of the 102-multiframe in which the SACCH of the dedicated channel begins. -/
def sacchBase (s : Grgsm) : Nat :=
  if s.sdcchCh8 then [32, 36, 40, 44, 83, 87, 91, 95].getD (s.sdcchSs / 4 % 8) 0
  else if s.sdcchSs = 26 then 46
  else if s.sdcchSs = 32 then 93
  else if s.sdcchSs = 36 then 97
  else 42

def dcchSacchPresent (s : Grgsm) (env : Env) : List Shown :=
  let f102 := env.trxFn.toNat % 102
  if s.dcchIsTch ∨ f102 < s.sacchBase ∨ s.sacchBase + 3 < f102 ∨ env.aCdBlud ∨ ¬ s.sacchHave then []
  else [.sacch s.sacchBuf]

def pollTchCfg (s : Grgsm) : Option (BitVec 32) → Grgsm
  | none => s
  | some seq =>
    if seq = 0 then
      if s.tchCfgValid then
        { s with
          tchCfgValid := false
          facchDlValid := false
          tsacchDlValid := false
          tchCfgLast := 0 }
      else { s with tchCfgLast := 0 }
    else if seq = s.tchCfgLast then s
    else
      { s with
        tchCfgLast := seq
        tchCfgValid := true
        facchDlValid := false
        tsacchDlValid := false }

/-- The part of `calypso_l1_frame_tick` that runs without a task. Both conditions of the source ask
`dcch_si_guard`; whatever the first gives it is asked, and asking twice changes nothing more. -/
def background (s : Grgsm) (env : Env) : Grgsm × List Shown :=
  if !s.sbValid then (s, [])
  else
    let immPending := s.agchValid && isImm (s.agchBuf.getD 2 0)
    let guarded := s.dcchSiGuard.1
    let s := s.dcchSiGuard.2
    if s.siValid ∧ ¬ s.sdcchValid ∧ ¬ guarded ∧ ¬ s.tchCfgValid ∧ ¬ immPending then
      let s := if s.siRot.toNat % 8 = 0 then s.rotateSi else s
      ({ s with siRot := s.siRot + 1 }, [.si (s.siSet s.siRr)])
    else if guarded ∧ ¬ s.tchFresh s.tsacchDlValid s.tsacchDlTick ∧ ¬ s.tchCfgValid then
      (s, s.dcchSacchPresent env)
    else (s, [])

def answer (s : Grgsm) (env : Env) : Grgsm × List Shown :=
  if s.dTaskD = allcDspTask then s.dispatchAllc env
  else if s.dTaskD &&& 0x7FFF = tchtDspTask then s.dispatchTchDl
  else if s.dTaskD &&& 0x7FFF = tchaDspTask then s.dispatchTchSacch
  else (s, [])

def frameTick (s : Grgsm) (env : Env) : Grgsm × List Shown :=
  let (s, shown) := (s.pollTchCfg env.tchCfg).background env
  if !s.pending then (s, shown)
  else
    let (s, shown') := ({ s with tick := s.tick + 1 }).answer env
    ({ s with pending := false }, shown ++ shown')

/-! ### The firmware and the tap -/

def l1Reset (s : Grgsm) : Grgsm :=
  { s with
    agchValid := false
    sdcchValid := false
    sdcchSsSet := false
    dcchGuardArmed := false }

/-- `calypso_l1_page_written`, with the two tasks that stand on the page. -/
def pageWritten (s : Grgsm) (v taskD taskU : Word) : Grgsm :=
  if !bitSet v 1 then if v = 0 then s.l1Reset else s
  else
    { s with
      dTaskD := taskD
      pending := true
      dcchGuardTick :=
        if s.dcchGuardArmed ∧ (taskU = dulDspTask ∨ taskU = tchtDspTask ∨ taskU = tchaDspTask) then
          s.tick
        else s.dcchGuardTick }

/-- `calypso_l1_dcch_set`. Its early return, for a channel already set, spares a line in the log. -/
def dcchSet (s : Grgsm) (ch8 : Bool) (ss : Nat) : Grgsm :=
  let base := if ch8 then ss % 8 * 4 else [22, 26, 32, 36].getD (ss % 4) 0
  { s with sdcchSs := base, sdcchSsSet := true, sdcchCh8 := ch8 }

inductive Event where
  /-- the firmware writes the page word -/
  | pageWritten (v taskD taskU : Word)
  | burstWritten (dBurstD : Word)
  | rachWritten (dRach : Word)
  /-- the tap on L1CTL sees an access confirmed, or a dedicated channel -/
  | rachConf (fn : BitVec 32)
  | dcchSet (ch8 : Bool) (ss : Nat)
  | dcchActive
  | dcchIsTch (on : Bool)
  /-- a datagram of gr-gsm, with the frame of the last access in the firmware's memory -/
  | gsmtap (lastRach : BitVec 32) (buf : List Byte)
  /-- a synchronisation message of gr-gsm -/
  | sch
  | frameTick (env : Env)
  deriving Repr, DecidableEq

/-- The layer, showing the blocks it presents. -/
def machine : Machine Grgsm Event Shown where
  step s e :=
    match e with
    | .pageWritten v taskD taskU => (s.pageWritten v taskD taskU, [])
    | .burstWritten dBurstD => ({ s with dBurstD := dBurstD &&& 3 }, [])
    | .rachWritten dRach => ({ s with lastRa := (dRach >>> 8).setWidth 8 }, [])
    | .rachConf fn => ({ s with rachConfFn := Function.update s.rachConfFn s.lastRa fn }, [])
    | .dcchSet ch8 ss => (s.dcchSet ch8 ss, [])
    | .dcchActive => ({ s with dcchGuardTick := s.tick, dcchGuardArmed := true }, [])
    | .dcchIsTch on => ({ s with dcchIsTch := on }, [])
    | .gsmtap lastRach buf => (s.gsmtapReadable lastRach buf, [])
    | .sch => ({ s with sbValid := true }, [])
    | .frameTick env => s.frameTick env

end Grgsm

end Qosmo
