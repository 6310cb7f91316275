import Qosmo.Sercomm.Basic

/-!
# Qosmo.Dcch.Tap

The dedicated-channel tap (`hw/arm/calypso/calypso_dcch_tap.c`).

The tap listens to what the firmware sends to the host and works out from the L1CTL messages
which dedicated channel the mobile is on. It writes the channel into a shared file for the
bridge, and tells the TRX about a new SDCCH or PDCH and about the release. Its deframer is
`Sercomm.dcchTapTxByte`; here is what it does with a frame.

* The channel is written when it differs from the last one (`announce`), and the tap remembers it
  before it knows whether the file could be written.
* The release is concluded from a block on a common channel that comes late enough after the last
  block of the dedicated channel (`handle`); the distance is taken in 32 bits and then reduced to
  the hyperframe.

The counters of the PDTCH blocks and the log are left out: nothing reads them.
-/

namespace Qosmo.Dcch

open Framing Sercomm

/-! ### Messages -/

/-- The messages the tap looks at, with the fields it reads. -/
inductive Msg where
  /-- `L1CTL_RACH_CONF` -/
  | rachConf (fn : BitVec 32)
  /-- `L1CTL_GPRS_DL_BLOCK_IND`, a block of the PDCH on the timeslot in the low bits of `tn` -/
  | dlBlock (fn : BitVec 32) (tn : Byte)
  /-- `L1CTL_DATA_IND` and `L1CTL_DATA_CONF`, a block of any other channel -/
  | data (chanNr : Byte) (fn : BitVec 32)
  | other
  deriving Repr, DecidableEq

/-- `ldl_be_p`. -/
def be32 (p : List Byte) (off : Nat) : BitVec 32 :=
  p.getD off 0 ++ p.getD (off + 1) 0 ++ p.getD (off + 2) 0 ++ p.getD (off + 3) 0

/-- How `trame_complete` reads a frame. A block too short to carry a frame number has number 0. -/
def parse (buf : List Byte) : Msg :=
  if buf.length < 3 ∨ buf.getD 0 0 ≠ dlciL1ctl then .other
  else
    let charge := buf.drop 2
    let type := charge.getD 0 0
    if type = 0x0C ∧ 12 ≤ charge.length then .rachConf (be32 charge 8)
    else if type = 0x23 ∧ 9 ≤ charge.length then .dlBlock (be32 charge 4) (charge.getD 8 0)
    else if type = 0x26 then .other
    else if (type ≠ 0x0F ∧ type ≠ 0x03) ∨ charge.length < 5 then .other
    else .data (charge.getD 4 0) (if 12 ≤ charge.length then be32 charge 8 else 0)

inductive Kind where
  | sdcch4
  | sdcch8
  | tchF
  | tchH
  | pdch
  | released
  deriving Repr, DecidableEq

def Kind.code : Kind → Byte
  | .sdcch4 => 0
  | .sdcch8 => 1
  | .tchF => 2
  | .tchH => 3
  | .pdch => 4
  | .released => 0xFF

/-- A TCH is not passed on to the TRX. -/
def Kind.isTch : Kind → Bool
  | .tchF | .tchH => true
  | _ => false

/-- The dedicated channels of a `chan_nr`, with the subslot. -/
def dedicated (chanNr : Byte) : Option (Kind × Byte) :=
  if chanNr &&& 0xE0 = 0x20 then some (.sdcch4, (chanNr >>> 3) &&& 0x03)
  else if chanNr &&& 0xC0 = 0x40 then some (.sdcch8, (chanNr >>> 3) &&& 0x07)
  else if chanNr &&& 0xF8 = 0x08 then some (.tchF, 0)
  else if chanNr &&& 0xF0 = 0x10 then some (.tchH, (chanNr >>> 3) &&& 0x01)
  else none

/-- The common channels: BCCH, RACH, PCH and AGCH. -/
def isCommon (chanNr : Byte) : Bool := chanNr &&& 0xE0 == 0x80

def pdchOf (tn : Byte) : Byte := 0xC0 ||| (tn &&& 0x07)

/-! ### The tap -/

/-- How opening and writing the shared file ends. -/
inductive Io where
  | ok
  | openFails
  | writeFails
  deriving Repr, DecidableEq

inductive Obs where
  /-- `calypso_trx_rach_conf` -/
  | rachConf (fn : BitVec 32)
  /-- the shared file has this content -/
  | file (record : List Byte)
  /-- `calypso_trx_dcch` -/
  | dcch (kind : Kind) (ss tn : Byte)
  deriving Repr, DecidableEq

/-- What the tap knows of the channels. -/
structure Channel where
  dernierChanNr : Byte
  seq : BitVec 32
  fnDedie : BitVec 32
  fnDedieVue : Bool
  trxChanNr : Byte
  deriving Repr, DecidableEq

/-- The sixteen bytes of the shared file. -/
def record (seq : BitVec 32) (kind : Kind) (ss chanNr : Byte) : List Byte :=
  [seq.setWidth 8, (seq >>> 8).setWidth 8, (seq >>> 16).setWidth 8, (seq >>> 24).setWidth 8,
    kind.code, ss, chanNr &&& 0x07, chanNr] ++ List.replicate 8 0

/-- `dcch_cfg_publier`. Opening truncates the file, so that a failed write leaves it empty. -/
def dcchCfgPublier (io : Io) (kind : Kind) (ss chanNr : Byte) (t : Channel) : Channel × List Obs :=
  let t := { t with seq := t.seq + 1 }
  match io with
  | .openFails => (t, [])
  | .writeFails => (t, [.file []])
  | .ok =>
    let file := Obs.file (record t.seq kind ss chanNr)
    if !kind.isTch && chanNr != t.trxChanNr then
      ({ t with trxChanNr := if kind = .released then 0xFF else chanNr },
        [file, .dcch kind ss (chanNr &&& 0x07)])
    else (t, [file])

/-- A block of a dedicated channel. -/
def announce (io : Io) (kind : Kind) (ss chanNr : Byte) (fn : BitVec 32) (t : Channel) :
    Channel × List Obs :=
  let t := { t with fnDedie := fn, fnDedieVue := true }
  if chanNr ≠ t.dernierChanNr then
    dcchCfgPublier io kind ss chanNr { t with dernierChanNr := chanNr }
  else (t, [])

def libereApresTrames : Nat := 100

def hyperframe : Nat := 2715648

/-- `ecart`: the subtraction is one of 32-bit words. -/
def ecart (fn fnDedie : BitVec 32) : Nat := (fn - fnDedie).toNat % hyperframe

/-- `trame_complete`, on a message. -/
def handle (io : Io) (t : Channel) : Msg → Channel × List Obs
  | .rachConf fn => (t, [.rachConf fn])
  | .dlBlock fn tn => announce io .pdch 0 (pdchOf tn) fn t
  | .data chanNr fn =>
    match dedicated chanNr with
    | some (kind, ss) => announce io kind ss chanNr fn t
    | none =>
      if t.dernierChanNr ≠ 0xFF ∧ isCommon chanNr ∧
          (t.fnDedieVue = false ∨
            libereApresTrames ≤ ecart fn t.fnDedie ∧ ecart fn t.fnDedie < hyperframe / 2) then
        dcchCfgPublier io .released 0 0 { t with dernierChanNr := 0xFF, fnDedieVue := false }
      else (t, [])
  | .other => (t, [])

def tapReset (io : Io) (t : Channel) : Channel × List Obs :=
  if t.dernierChanNr = 0xFF then (t, [])
  else dcchCfgPublier io .released 0 0 { t with dernierChanNr := 0xFF }

structure Tap where
  rx : Receiver Byte
  chan : Channel
  deriving Repr, DecidableEq

def Tap.init : Tap :=
  ⟨rxInit, { dernierChanNr := 0xFF, seq := 0, fnDedie := 0, fnDedieVue := false, trxChanNr := 0xFF }⟩

/-- What happens to the tap; the outcome of the file operations comes with it. -/
inductive Event where
  /-- `calypso_dcch_tap_tx_byte` -/
  | byte (b : Byte) (io : Io)
  /-- `calypso_dcch_tap_reset` -/
  | reset (io : Io)
  deriving Repr, DecidableEq

def Event.io : Event → Io
  | .byte _ io => io
  | .reset io => io

def completes (t : Tap) : Event → Option Msg
  | .byte b _ => (dcchTapTxByte t.rx b).2.head?.map parse
  | .reset _ => none

/-- The receiver after the event. -/
def rxAfter (t : Tap) : Event → Receiver Byte
  | .byte b _ => (dcchTapTxByte t.rx b).1
  | .reset _ => t.rx

/-- What the event does to the channels. -/
def chanStep (t : Tap) (e : Event) : Channel × List Obs :=
  match e, completes t e with
  | .reset io, _ => tapReset io t.chan
  | .byte _ io, some m => handle io t.chan m
  | .byte _ _, none => (t.chan, [])

def tap : Machine Tap Event Obs where
  step t e := (⟨rxAfter t e, (chanStep t e).1⟩, (chanStep t e).2)

/-! ### What an event can do -/

/-- A block of a dedicated channel. -/
structure Block where
  kind : Kind
  ss : Byte
  chanNr : Byte
  fn : BitVec 32
  deriving Repr, DecidableEq

def blockOf : Msg → Option Block
  | .dlBlock fn tn => some ⟨.pdch, 0, pdchOf tn, fn⟩
  | .data chanNr fn => (dedicated chanNr).map fun k => ⟨k.1, k.2, chanNr, fn⟩
  | _ => none

/-- The block an event brings. -/
def blockAt (t : Tap) (e : Event) : Option Block := (completes t e).bind blockOf

/-- What an event does to the channels: a block announces its channel, a common block or a reset
may release it, anything else leaves them alone. -/
inductive Does (t : Tap) (e : Event) : Channel × List Obs → Prop where
  | announce {b : Block} : blockAt t e = some b →
      Does t e (announce e.io b.kind b.ss b.chanNr b.fn t.chan)
  | release {vue : Bool} : blockAt t e = none → t.chan.dernierChanNr ≠ 0xFF →
      Does t e (dcchCfgPublier e.io .released 0 0
        { t.chan with dernierChanNr := 0xFF, fnDedieVue := vue })
  | nothing {os : List Obs} : blockAt t e = none → (∀ k ss tn, .dcch k ss tn ∉ os) →
      Does t e (t.chan, os)

theorem does_handle {t : Tap} {b : Byte} {io : Io} {m : Msg}
    (h : completes t (.byte b io) = some m) : Does t (.byte b io) (handle io t.chan m) := by
  have hblock : blockAt t (.byte b io) = blockOf m := by rw [blockAt, h, Option.bind_some]
  cases m with
  | rachConf fn | other => exact .nothing hblock (by simp)
  | dlBlock fn tn => exact .announce (e := .byte b io) hblock
  | data chanNr fn =>
    cases hd : dedicated chanNr with
    | some k =>
      have hsome : blockAt t (.byte b io) = some ⟨k.1, k.2, chanNr, fn⟩ := by
        rw [hblock, blockOf, hd, Option.map_some]
      have hrun : handle io t.chan (.data chanNr fn) =
          announce io k.1 k.2 chanNr fn t.chan := by simp only [handle, hd]
      rw [hrun]
      exact .announce (e := .byte b io) hsome
    | none =>
      have hnone : blockAt t (.byte b io) = none := by rw [hblock, blockOf, hd, Option.map_none]
      simp only [handle, hd]
      split
      · rename_i hrel
        exact .release (e := .byte b io) hnone hrel.1
      · exact .nothing hnone (by simp)

theorem does_chanStep (t : Tap) (e : Event) : Does t e (chanStep t e) := by
  cases e with
  | byte b io =>
    cases hm : completes t (.byte b io) with
    | some m =>
      simp only [chanStep, hm]
      exact does_handle hm
    | none =>
      simp only [chanStep, hm]
      exact .nothing (by rw [blockAt, hm, Option.bind_none]) (by simp)
  | reset io =>
    simp only [chanStep, tapReset]
    split
    · exact .nothing rfl (by simp)
    · rename_i harmed
      exact .release (e := .reset io) rfl harmed

/-! ### Publications -/

/-- A publication leaves what the tap remembers of the dedicated channel. -/
theorem publier_chan (io : Io) (kind : Kind) (ss chanNr : Byte) (t : Channel) :
    (dcchCfgPublier io kind ss chanNr t).1.dernierChanNr = t.dernierChanNr ∧
    (dcchCfgPublier io kind ss chanNr t).1.fnDedie = t.fnDedie ∧
    (dcchCfgPublier io kind ss chanNr t).1.fnDedieVue = t.fnDedieVue := by
  unfold dcchCfgPublier
  cases io with
  | ok =>
    dsimp only
    split <;> exact ⟨rfl, rfl, rfl⟩
  | openFails | writeFails => exact ⟨rfl, rfl, rfl⟩

theorem announce_chan (io : Io) (kind : Kind) (ss chanNr : Byte) (fn : BitVec 32) (t : Channel) :
    (announce io kind ss chanNr fn t).1.dernierChanNr = chanNr ∧
    (announce io kind ss chanNr fn t).1.fnDedie = fn ∧
    (announce io kind ss chanNr fn t).1.fnDedieVue := by
  unfold announce
  dsimp only
  split
  · exact publier_chan io kind ss chanNr _
  · rename_i hsame
    exact ⟨(not_not.mp hsame).symm, rfl, rfl⟩

end Qosmo.Dcch
