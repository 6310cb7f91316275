import Qosmo.Basic
import Qosmo.Lib.Run
import Qosmo.Lib.Slotted

/-!
# Qosmo.Bsp.Stream

The stream mode of the burst interface (`CALYPSO_BSP_STREAM=1`,
`hw/arm/calypso/l1-dsp/calypso_bsp.c`).

The bridge sends the bursts of all eight timeslots, and the BSP keeps them by frame number until
the DSP asks for the frame: those of TS0 (`g_ts0`), those of the dedicated timeslot (`g_dedie`), and
those of TS1 to TS7 (`g_autres`). The stores are rings: a frame shares its slot with the frames a
ring size apart. `bsp_dedie_bits` looks a frame of the dedicated channel up; `bsp_attendre_trame`
waits for a frame of the BTS that is late.

Left out: the counters and logs, the play of the bursts (`bsp_ts0_service`), whose effects here are
that it moves `g_ts0_offset`, and the uplink copies, which are stored apart. Memory can be
allocated, so that a store not allocated yet is an empty one.
-/

namespace Qosmo.Bsp

/-- The 148 bits of a burst, one a byte. -/
abbrev Bits := List Byte

/-- The state of the stream mode. -/
structure Stream where
  /-- `g_ts0` -/
  ts0 : Nat → Cell (BitVec 32) (Option Bits)
  /-- `g_ts0_any` -/
  ts0Any : Bool
  /-- `g_ts0_fn_max`: the most recent BTS frame -/
  ts0FnMax : BitVec 32
  /-- `g_dedie`, the bursts of the dedicated timeslot -/
  dedie : Nat → Cell (BitVec 32) (Option Bits)
  /-- `g_dedie_tn`; −1 when no channel is armed -/
  dedieTn : Int
  /-- `g_autres`, by frame and timeslot -/
  autres : Nat → Cell (BitVec 32) (Nat → Option Bits)
  /-- `g_ts0_offset`, from the tick to the BTS frame; unknown at first -/
  ts0Offset : Option Int
  /-- `g_trx_cale` -/
  trxCale : Bool
  /-- the frame `bsp_attendre_trame` is waiting for -/
  attente : Option (BitVec 32)

namespace Stream

def empty {V : Type} [Inhabited V] : Nat → Cell (BitVec 32) V := fun _ => ⟨0, default⟩

def init : Stream where
  ts0 := empty
  ts0Any := false
  ts0FnMax := 0
  dedie := empty
  dedieTn := -1
  autres := empty
  ts0Offset := none
  trxCale := false
  attente := none

/-- The slot in a ring of 2¹⁸ frames, `BSP_TS0_RING`. -/
def ts0Slot (fn : BitVec 32) : Nat := fn.toNat % 2 ^ 18

/-- The slot in a ring of 2¹⁶ frames, `BSP_DEDIE_RING` and `BSP_AUTRES_RING`. -/
def ringSlot (fn : BitVec 32) : Nat := fn.toNat % 2 ^ 16

/-! ### Receiving -/

def ts0Stocker (s : Stream) (fn : BitVec 32) (bits : Bits) : Stream :=
  { s with
    ts0 := Slotted.set ts0Slot s.ts0 fn (some bits)
    ts0FnMax := if !s.ts0Any || decide (0 < (fn - s.ts0FnMax).toInt) then fn else s.ts0FnMax
    ts0Any := true }

def dedieStocker (s : Stream) (fn : BitVec 32) (bits : Bits) : Stream :=
  { s with dedie := Slotted.set ringSlot s.dedie fn (some bits) }

/-- `bsp_autres_stocker`: a slot taken over from another frame starts without bursts. -/
def autresStocker (s : Stream) (fn : BitVec 32) (tn : Nat) (bits : Bits) : Stream :=
  if tn < 1 ∨ 7 < tn then s
  else
    let i := ringSlot fn
    let present := if (s.autres i).key ≠ fn then fun _ => none else (s.autres i).val
    { s with autres := Function.update s.autres i ⟨fn, Function.update present tn (some bits)⟩ }

/-- The timeslot, the frame and the bits of a packet that holds a whole downlink burst. The
bridge marks its uplink copies by 0xA5 in byte 6. -/
def burst (buf : List Byte) : Option (Nat × BitVec 32 × Bits) :=
  if buf.length < 8 + 148 ∨ buf.getD 6 0 = 0xA5 then none
  else some ((buf.getD 0 0 &&& 0x07).toNat,
    buf.getD 1 0 ++ buf.getD 2 0 ++ buf.getD 3 0 ++ buf.getD 4 0, (buf.drop 8).take 148)

/-- `bsp_trxd_readable`, in stream mode. A burst that is not whole is not kept. -/
def receive (s : Stream) (buf : List Byte) : Stream :=
  match burst buf with
  | none => s
  | some (tn, fn, bits) =>
    if tn = 0 then s.ts0Stocker fn bits
    else
      let s := if (tn : Int) = s.dedieTn then s.dedieStocker fn bits else s
      s.autresStocker fn tn bits

/-! ### The dedicated channel -/

/-- `calypso_bsp_set_dedie`; 0xFF is the release. -/
def setDedie (s : Stream) (tn genre : Int) : Stream :=
  if tn ≤ 0 ∨ 7 < tn ∨ genre = 0xFF then { s with dedieTn := -1 }
  else { s with dedie := if s.dedieTn ≠ tn then empty else s.dedie, dedieTn := tn }

def autresBits (s : Stream) (fn : BitVec 32) (tn : Nat) : Option Bits :=
  if tn < 1 ∨ 7 < tn then none else Slotted.get ringSlot s.autres fn tn

/-- `bsp_dedie_bits`; `strict` is `MONTANT_DEDIE_STRICT=1`. -/
def dedieBits (s : Stream) (strict : Bool) (fn : BitVec 32) : Option Bits :=
  if s.dedieTn ≤ 0 then none
  else
    match Slotted.get ringSlot s.dedie fn with
    | some bits => some bits
    | none => if strict then none else s.autresBits fn s.dedieTn.toNat

/-- The burst of TS1 in frame `w` is taken by the uplink of TRX mode. -/
def takeTs1 (s : Stream) (w : BitVec 32) : Stream :=
  let i := ringSlot w
  if (s.autres i).key = w then
    { s with autres :=
      Function.update s.autres i ⟨w, Function.update (s.autres i).val 1 none⟩ }
  else s

/-! ### Waiting for a late frame -/

/-- `BSP_FN_MAX`, the frames of a hyperframe. -/
def fnMax : Nat := 2715648

/-- The BTS frame for a tick. -/
def wanted (s : Stream) (tickFn : BitVec 32) : Option (BitVec 32) :=
  s.ts0Offset.map fun offset => BitVec.ofInt 32 ((tickFn.toNat + offset) % fnMax)

def present (s : Stream) (w : BitVec 32) : Bool := (Slotted.get ts0Slot s.ts0 w).isSome

inductive Obs where
  | attente (w : BitVec 32)
  | servie (w : BitVec 32)
  | echue (w : BitVec 32)
  deriving Repr, DecidableEq

/-- What the wait depends on besides the stream: `CALYPSO_BSP_ATTENTE_MS`, and whether the socket
is open. -/
structure Setup where
  attenteMs : Int
  socket : Bool

def mayWait (g : Setup) (s : Stream) : Bool :=
  decide (0 < g.attenteMs) && s.ts0Any && g.socket && !s.trxCale

/-- `bsp_attendre_trame`, up to the loop. -/
def attendreTrame (g : Setup) (s : Stream) (tickFn : BitVec 32) : Stream × List Obs :=
  match s.wanted tickFn with
  | none => (s, [])
  | some w =>
    if !mayWait g s || s.present w then (s, [])
    else
      let devant := (w - s.ts0FnMax).toInt
      if devant ≤ 0 ∨ 200 < devant then (s, []) else ({ s with attente := some w }, [.attente w])

/-- The end of a round of the loop: everything on the socket has been read. -/
def drained (s : Stream) : Stream × List Obs :=
  match s.attente with
  | some w => if s.present w then ({ s with attente := none }, [.servie w]) else (s, [])
  | none => (s, [])

/-- The time of the loop is up. -/
def expired (s : Stream) : Stream × List Obs :=
  match s.attente with
  | some w => ({ s with attente := none }, [.echue w])
  | none => (s, [])

/-! ### The whole as a machine -/

/-- What can happen next. The program itself does nothing but receive while it waits. -/
inductive Event where
  /-- a packet from the bridge -/
  | packet (buf : List Byte)
  /-- `calypso_bsp_set_dedie` -/
  | setDedie (tn genre : Int)
  /-- the uplink of TRX mode takes a burst of TS1 -/
  | takeTs1 (w : BitVec 32)
  /-- the offset is set or moved -/
  | offset (offset : Option Int) (trxCale : Bool)
  /-- `calypso_bsp_service`: a tick asks for its frame -/
  | service (tickFn : BitVec 32)
  | drained
  | expired

def step (g : Setup) (s : Stream) : Event → Stream × List Obs
  | .packet buf => (s.receive buf, [])
  | .setDedie tn genre => (s.setDedie tn genre, [])
  | .takeTs1 w => (s.takeTs1 w, [])
  | .offset offset trxCale => ({ s with ts0Offset := offset, trxCale := trxCale }, [])
  | .service tickFn => s.attendreTrame g tickFn
  | .drained => s.drained
  | .expired => s.expired

def machine (g : Setup) : Machine Stream Event Obs := ⟨step g⟩

/-! ### The waits change nothing but `attente` -/

def Event.waits : Event → Bool
  | .service _ | .drained | .expired => true
  | _ => false

theorem step_of_waits (g : Setup) (s : Stream) (e : Event) (h : e.waits) :
    ∃ w, (s.step g e).1 = { s with attente := w } := by
  cases e with
  | packet | setDedie | takeTs1 | offset => cases h
  | service tickFn =>
    dsimp only [step, attendreTrame]
    split
    · exact ⟨s.attente, rfl⟩
    · split_ifs
      · exact ⟨s.attente, rfl⟩
      · exact ⟨s.attente, rfl⟩
      · exact ⟨_, rfl⟩
  | drained =>
    dsimp only [step, drained]
    split
    · split
      · exact ⟨none, rfl⟩
      · exact ⟨s.attente, rfl⟩
    · exact ⟨s.attente, rfl⟩
  | expired =>
    dsimp only [step, expired]
    split
    · exact ⟨none, rfl⟩
    · exact ⟨s.attente, rfl⟩

end Stream

end Qosmo.Bsp
