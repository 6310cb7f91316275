import Qosmo.Sim.Card

/-!
# Qosmo.Sim.Interface

The SIM interface (`calypso_sim.c`, `calypso_sim_reg_read`, `calypso_sim_reg_write` and the
timers): the registers the terminal sees, and the two buffers between it and the card.

A byte written to DTX goes to the card, which collects a command and answers it. The answer
is held in `pend` until the response timer fires, and only then enters the receive FIFO read
at DRX; the ATR enters the FIFO directly, at once or from its own timer.

The ring `rx[512]` with its head and tail is the list of the bytes in it, at most 511. The
flag `defer`, set only while a byte is handed to the card, is the choice between the two
buffers. Timers are their deadlines: a timer fires in any call made when it is due.
-/

namespace Qosmo.Sim

/-! ### Constants -/

def atr : List Byte := [0x3B, 0x02, 0x14, 0x50]

/-- Bytes the FIFO takes (`RX_FIFO_SIZE - 1`), bytes `pend` takes, bytes of a command. -/
def rxRoom : Nat := 511
def pendRoom : Nat := 277
def apduMaxLen : Nat := 261

/-- Delays, in nanoseconds; `usOctet` is the default of `CALYPSO_SIM_US_OCTET`. -/
def atrDelayNs : Int := 1000000
def wtDelayNs : Int := 2000000
def respDelayNs : Int := 1500000
def apduAbandonNs : Int := 500000000
def usOctet : Int := 1040

def respDelaiNs (n : Nat) : Int := max (n * usOctet * 1000) respDelayNs

/-- Bits of the registers, by number. -/
def cmdCardRst : Nat := 0
def cmdIfRst : Nat := 1
def cmdStop : Nat := 2
def cmdStart : Nat := 3
def conf1Sclken : Nat := 3
def conf1Bypass : Nat := 8
def conf1Svcclev : Nat := 9
def conf1Srstlev : Nat := 10

/-- Bits of SIM_IT. NATR, WT, OV and TX are cleared by reading it. -/
def itWt : Word := 0x0002
def itTx : Word := 0x0008
def itRx : Word := 0x0010
def itEdge : Word := 0x000F

inductive Reg
  | cmd | stat | conf1 | conf2 | it | drx | dtx | maskit | itCd
  deriving Repr, DecidableEq

def Reg.ofOffset (off : Nat) : Option Reg :=
  if off = 0x00 then some .cmd
  else if off = 0x02 then some .stat
  else if off = 0x04 then some .conf1
  else if off = 0x06 then some .conf2
  else if off = 0x08 then some .it
  else if off = 0x0A then some .drx
  else if off = 0x0C then some .dtx
  else if off = 0x0E then some .maskit
  else if off = 0x10 then some .itCd
  else none

/-- `CalypsoSim`. -/
structure Interface where
  card : Card
  cmd : Word
  stat : Word
  conf1 : Word
  conf2 : Word
  maskit : Word
  itCd : Word
  it : Word
  /-- `apdu[0 .. apdu_pos)`. -/
  apdu : List Byte
  apduExpected : Nat
  rx : List Byte
  powered : Bool
  atrManualDone : Bool
  /-- `pend[0 .. pend_len)`. -/
  pend : List Byte
  atrTimer : Option Int
  respTimer : Option Int
  wtTimer : Option Int
  txTimer : Option Int
  lastTxNs : Int
  /-- Level of the interrupt line. -/
  irq : Bool

/-- A byte enters a buffer unless it is full. -/
def push (room : Nat) (q : List Byte) (b : Byte) : List Byte :=
  if q.length < room then q ++ [b] else q

/-- `rx_push_n`. -/
def pushAll (room : Nat) (q bs : List Byte) : List Byte := bs.foldl (push room) q

namespace Interface

/-- `calypso_sim_new`. -/
def init (cfg : Config) : Interface where
  card := .init cfg
  cmd := 0
  stat := 0
  conf1 := 0
  conf2 := 0
  maskit := 0
  itCd := 0
  it := 0
  apdu := []
  apduExpected := 0
  rx := []
  powered := false
  atrManualDone := false
  pend := []
  atrTimer := none
  respTimer := none
  wtTimer := none
  txTimer := none
  lastTxNs := 0
  irq := false

def refreshItRx (s : Interface) : Interface :=
  { s with it := if s.rx = [] then s.it &&& ~~~itRx else s.it ||| itRx }

def updateIrq (s : Interface) : Interface :=
  let s := s.refreshItRx
  { s with irq := decide (s.it &&& ~~~s.maskit ≠ 0) }

/-- `deliver_atr`, outside a transmission. -/
def deliverAtr (s : Interface) : Interface :=
  if s.powered then { s with rx := pushAll rxRoom s.rx atr }.updateIrq else s

/-- Sending the ATR touches the FIFO and the interrupt alone. -/
theorem deliverAtr_eq (s : Interface) :
    ∃ rx it irq, s.deliverAtr = { s with rx := rx, it := it, irq := irq } := by
  unfold deliverAtr
  generalize pushAll rxRoom s.rx atr = rx
  split
  · exact ⟨_, _, _, rfl⟩
  · exact ⟨s.rx, s.it, s.irq, rfl⟩

/-! ### Timers -/

def due (timer : Option Int) (now : Int) : Bool := timer.any fun t => decide (t ≤ now)

/-- `deliver_atr`, from its timer. -/
def atrFire (s : Interface) : Interface := { s with atrTimer := none }.deliverAtr

def respFire (s : Interface) : Interface :=
  { s with respTimer := none, rx := pushAll rxRoom s.rx s.pend, pend := [] }.updateIrq

/-- `fire_wt`: no timeout while a response is being transmitted. -/
def fireWt (s : Interface) (now : Int) : Interface :=
  if s.rx ≠ [] then { s with wtTimer := none }
  else if s.pend ≠ [] then { s with wtTimer := some (now + wtDelayNs) }
  else { s with wtTimer := none, it := s.it ||| itWt }.updateIrq

def txFire (s : Interface) : Interface := { s with txTimer := none, it := s.it ||| itTx }.updateIrq

/-! ### Bytes to the card -/

/-- A silence of more than 500 ms abandons the command begun. -/
def resync (s : Interface) (now : Int) : Interface :=
  if s.apdu ≠ [] ∧ apduAbandonNs < now - s.lastTxNs then { s with apdu := [], apduExpected := 0 }
  else s

def collect (s : Interface) (b : Byte) : List Byte :=
  if s.apdu.length < apduMaxLen then s.apdu ++ [b] else s.apdu

def announces (apdu : List Byte) : Bool :=
  isOutgoingData (apdu.getD 1 0) && decide (apdu.getD 4 0 ≠ 0)

/-- The length the header announces. -/
def announced (apdu : List Byte) : Nat := if announces apdu then 5 + (apdu.getD 4 0).toNat else 5

/-- The length of the command being collected, known from its fifth byte on. -/
def expects (s : Interface) (apdu : List Byte) : Nat :=
  if apdu.length = 5 then announced apdu else s.apduExpected

/-- The procedure byte, behind a header that announces data. -/
def ack (apdu : List Byte) : List Byte :=
  if apdu.length = 5 ∧ announces apdu = true then [apdu.getD 1 0] else []

/-- `apdu_tx_byte_inner`, with the bytes it pushes: a procedure byte, the answer to a whole
command. -/
def apduTxByteInner (s : Interface) (now : Int) (b : Byte) : Interface × List Byte :=
  let s := s.resync now
  let apdu := s.collect b
  if apdu.length = s.expects apdu then
    ({ s with lastTxNs := now, apdu := [], apduExpected := 0, card := (s.card.dispatchApdu apdu).1 },
      ack apdu ++ (s.card.dispatchApdu apdu).2)
  else ({ s with lastTxNs := now, apdu := apdu, apduExpected := s.expects apdu }, ack apdu)

/-- `apdu_tx_byte`: the bytes pushed wait for the response timer, set for all that wait. -/
def apduTxByte (s : Interface) (now : Int) (b : Byte) : Interface :=
  let q := s.apduTxByteInner now b
  let pend := pushAll pendRoom q.1.pend q.2
  { q.1 with
    pend := pend
    respTimer := if pend = [] then q.1.respTimer else some (now + respDelaiNs pend.length) }

/-! ### Registers -/

def reset (s : Interface) : Interface :=
  { s with
    apdu := [], apduExpected := 0, rx := []
    card := { s.card with resp := [], selectedDf := 0x3F00, selectedEf := 0x3F00 } }

def resets (val : Word) : Bool := bitSet val cmdCardRst || bitSet val cmdIfRst

def cmdWrite (s : Interface) (val : Word) : Interface :=
  let s := { s with cmd := val }
  let s := if bitSet val cmdStart then { s with powered := true }.deliverAtr else s
  let s := if bitSet val cmdStop then { s with powered := false } else s
  if resets val then s.reset.deliverAtr else s

/-- Edges of a bit of CONF1. -/
def rises (s : Interface) (val : Word) (n : Nat) : Bool := bitSet val n && !bitSet s.conf1 n
def falls (s : Interface) (val : Word) (n : Nat) : Bool :=
  !bitSet val n && bitSet s.conf1 n

/-- Has the ATR of this reset been asked for, once the write has put the card in reset? -/
def manualDone (s : Interface) (val : Word) : Bool :=
  s.atrManualDone && !s.falls val conf1Srstlev

def asksAtr (s : Interface) (val : Word) : Bool :=
  bitSet val conf1Bypass && (s.powered || bitSet val conf1Svcclev) && !s.manualDone val
    && (s.rises val conf1Sclken || s.rises val conf1Srstlev)

def conf1Write (s : Interface) (now : Int) (val : Word) : Interface :=
  { s with
    conf1 := val
    powered := s.powered || bitSet val conf1Svcclev
    rx := if s.falls val conf1Srstlev then [] else s.rx
    apdu := if s.falls val conf1Srstlev then [] else s.apdu
    apduExpected := if s.falls val conf1Srstlev then 0 else s.apduExpected
    atrTimer := if s.asksAtr val then some (now + atrDelayNs) else s.atrTimer
    atrManualDone := (s.manualDone val || s.asksAtr val) && !s.falls val conf1Svcclev }

/-- A write to MASKIT: the waiting time starts where it may interrupt. -/
def maskitWrite (s : Interface) (now : Int) (val : Word) : Interface :=
  let s := { s with maskit := val }.updateIrq
  if val &&& itWt = 0 ∧ s.it &&& itWt = 0 ∧ s.rx = [] then
    { s with wtTimer := some (now + wtDelayNs) }
  else s

/-- The value of STAT. -/
def statRead (s : Interface) : Word :=
  (if s.powered then 0x0001 else 0) ||| 0x0002
    ||| (if s.rx.length = 0 then 0x0008 else 0) ||| (if rxRoom ≤ s.rx.length then 0x0004 else 0)

inductive Obs
  /-- A byte left the receive FIFO. -/
  | delivered (b : Byte)
  /-- The bytes the card pushed for a byte received. -/
  | answered (bs : List Byte)
  /-- The value of a register. -/
  | value (v : Word)
  deriving Repr, DecidableEq

def regRead (s : Interface) (off : Nat) : Interface × List Obs :=
  match Reg.ofOffset off with
  | some .cmd => (s, [.value s.cmd])
  | some .stat => (s, [.value s.statRead])
  | some .conf1 => (s, [.value s.conf1])
  | some .conf2 => (s, [.value s.conf2])
  | some .it =>
    let s := s.refreshItRx
    ({ s with it := s.it &&& ~~~(s.it &&& itEdge) }.updateIrq, [.value s.it])
  | some .drx =>
    match s.rx with
    | [] => (s.updateIrq, [.value 0x0100])
    | b :: rest => ({ s with rx := rest }.updateIrq, [.delivered b, .value (b.setWidth 16 ||| 0x0100)])
  | some .dtx => (s, [.value 0])
  | some .maskit => (s, [.value s.maskit])
  | some .itCd => (s, [.value s.itCd])
  | none => (s, [.value 0])

/-- A write to DTX. The transmission interrupt comes one character time later. -/
def dtxWrite (s : Interface) (now : Int) (val : Word) : Interface × List Obs :=
  ({ s.apduTxByte now (val.extractLsb' 0 8) with txTimer := some (now + usOctet * 1000) },
    [.answered (s.apduTxByteInner now (val.extractLsb' 0 8)).2])

/-- What a write to DTX does behind the card's part in it, `q`. -/
theorem dtxWrite_eq (s : Interface) (now : Int) (val : Word) :
    ∃ q respTimer, q = s.apduTxByteInner now (val.extractLsb' 0 8) ∧
      s.dtxWrite now val
        = ({ q.1 with
              pend := pushAll pendRoom q.1.pend q.2
              respTimer := respTimer
              txTimer := some (now + usOctet * 1000) },
            [.answered q.2]) :=
  ⟨_, _, rfl, rfl⟩

def regWrite (s : Interface) (now : Int) (off : Nat) (val : Word) : Interface × List Obs :=
  match Reg.ofOffset off with
  | some .cmd => (s.cmdWrite val, [])
  | some .stat => ({ s with stat := val }, [])
  | some .conf1 => (s.conf1Write now val, [])
  | some .conf2 => ({ s with conf2 := val }, [])
  | some .it => (s, [])
  | some .drx => (s, [])
  | some .dtx => s.dtxWrite now val
  | some .maskit => (s.maskitWrite now val, [])
  | some .itCd => ({ s with itCd := val }, [])
  | none => (s, [])

/-! ### The interface as a machine -/

inductive Call
  | read (off : Nat)
  | write (off : Nat) (val : Word)
  | atrTimer
  | respTimer
  | wtTimer
  | txTimer
  deriving Repr, DecidableEq

structure Event where
  now : Int
  call : Call
  deriving Repr, DecidableEq

/-- One call; a timer that is not due does nothing. -/
def step (s : Interface) (e : Event) : Interface × List Obs :=
  match e.call with
  | .read off => s.regRead off
  | .write off val => s.regWrite e.now off val
  | .atrTimer => (if due s.atrTimer e.now then s.atrFire else s, [])
  | .respTimer => (if due s.respTimer e.now then s.respFire else s, [])
  | .wtTimer => (if due s.wtTimer e.now then s.fireWt e.now else s, [])
  | .txTimer => (if due s.txTimer e.now then s.txFire else s, [])

def machine : Machine Interface Event Obs := ⟨step⟩

def delivered (os : List Obs) : List Byte :=
  os.flatMap fun
    | .delivered b => [b]
    | _ => []

def answered (os : List Obs) : List Byte :=
  os.flatMap fun
    | .answered bs => bs
    | _ => []

@[simp] theorem delivered_append (os os' : List Obs) :
    delivered (os ++ os') = delivered os ++ delivered os' := List.flatMap_append
@[simp] theorem answered_append (os os' : List Obs) :
    answered (os ++ os') = answered os ++ answered os' := List.flatMap_append

/-! ### What a call can do -/

/-- The byte a call sends to the card, and when. -/
def Event.sent (e : Event) : List (Int × Byte) :=
  match e.call with
  | .write off val => if Reg.ofOffset off = some .dtx then [(e.now, val.extractLsb' 0 8)] else []
  | _ => []

/-- The two interfaces have collected the same bytes at the same time, for the same card. -/
structure Alike (s t : Interface) : Prop where
  apdu : s.apdu = t.apdu
  expected : s.apduExpected = t.apduExpected
  last : s.lastTxNs = t.lastTxNs
  card : s.card = t.card

/-- They also have the same bytes for the terminal, and the same ATR to come. -/
structure Still (s t : Interface) : Prop extends Alike s t where
  rx : s.rx = t.rx
  pend : s.pend = t.pend
  atrTimer : s.atrTimer = t.atrTimer
  powered : s.powered = t.powered

variable {s t : Interface}

theorem Alike.refl (s : Interface) : s.Alike s := ⟨rfl, rfl, rfl, rfl⟩

theorem Alike.trans {u : Interface} (h : s.Alike t) (h' : t.Alike u) : s.Alike u :=
  ⟨h.apdu.trans h'.apdu, h.expected.trans h'.expected, h.last.trans h'.last, h.card.trans h'.card⟩

theorem deliverAtr_alike (s : Interface) : s.deliverAtr.Alike s := by
  obtain ⟨rx, it, irq, heq⟩ := deliverAtr_eq s
  rw [heq]
  exact ⟨rfl, rfl, rfl, rfl⟩

/-- CMD starts and stops the card, and may reset it. -/
theorem cmdWrite_eq (s : Interface) (val : Word) :
    ∃ t : Interface, t.Alike s ∧
      s.cmdWrite val = if resets val then t.reset.deliverAtr else t := by
  refine ⟨_, ?_, rfl⟩
  obtain ⟨rx, it, irq, heq⟩ := deliverAtr_eq { s with cmd := val, powered := true }
  rw [heq]
  split <;> split <;> exact ⟨rfl, rfl, rfl, rfl⟩

/-- What a call does to the buffers and to the card. -/
inductive Stepped (s : Interface) : Event → Interface × List Obs → Prop
  | still {e : Event} {s' : Interface} {os : List Obs} : s'.Still s → delivered os = [] →
      answered os = [] → e.sent = [] → Stepped s e (s', os)
  | drx {now : Int} {off : Nat} {b : Byte} {rest : List Byte} {v : Word} : s.rx = b :: rest →
      Stepped s ⟨now, .read off⟩ ({ s with rx := rest }.updateIrq, [.delivered b, .value v])
  | cmd {now : Int} {off : Nat} {val : Word} : Reg.ofOffset off = some .cmd →
      Stepped s ⟨now, .write off val⟩ (s.cmdWrite val, [])
  | conf1 {now : Int} {off : Nat} {val : Word} : Reg.ofOffset off = some .conf1 →
      Stepped s ⟨now, .write off val⟩ (s.conf1Write now val, [])
  | dtx {now : Int} {off : Nat} {val : Word} : Reg.ofOffset off = some .dtx →
      Stepped s ⟨now, .write off val⟩ (s.dtxWrite now val)
  | atr {now : Int} : due s.atrTimer now = true → Stepped s ⟨now, .atrTimer⟩ (s.atrFire, [])
  | resp {now : Int} : Stepped s ⟨now, .respTimer⟩ (s.respFire, [])

theorem stepped_step (s : Interface) (e : Event) : Stepped s e (s.step e) := by
  obtain ⟨now, call⟩ := e
  unfold step
  cases call with
  | read off =>
    dsimp only [regRead]
    split
    case h_6 =>
      split
      · exact .still ⟨⟨rfl, rfl, rfl, rfl⟩, rfl, rfl, rfl, rfl⟩ rfl rfl rfl
      · exact .drx (by assumption)
    all_goals exact .still ⟨⟨rfl, rfl, rfl, rfl⟩, rfl, rfl, rfl, rfl⟩ rfl rfl rfl
  | write off val =>
    dsimp only [regWrite]
    cases hreg : Reg.ofOffset off with
    | none =>
      exact .still ⟨.refl s, rfl, rfl, rfl, rfl⟩ rfl rfl (if_neg (by simp [hreg]))
    | some reg =>
      cases reg with
      | cmd => exact .cmd hreg
      | conf1 => exact .conf1 hreg
      | dtx => exact .dtx hreg
      | maskit =>
        refine .still ?_ rfl rfl (if_neg (by simp [hreg]))
        dsimp only [maskitWrite]
        split <;> exact ⟨⟨rfl, rfl, rfl, rfl⟩, rfl, rfl, rfl, rfl⟩
      | _ =>
        exact .still ⟨⟨rfl, rfl, rfl, rfl⟩, rfl, rfl, rfl, rfl⟩ rfl rfl (if_neg (by simp [hreg]))
  | atrTimer =>
    dsimp only
    split
    · exact .atr (by assumption)
    · exact .still ⟨.refl s, rfl, rfl, rfl, rfl⟩ rfl rfl rfl
  | respTimer =>
    dsimp only
    split
    · exact .resp
    · exact .still ⟨.refl s, rfl, rfl, rfl, rfl⟩ rfl rfl rfl
  | wtTimer | txTimer =>
    refine .still ?_ rfl rfl rfl
    dsimp only [fireWt]
    split_ifs <;> exact ⟨⟨rfl, rfl, rfl, rfl⟩, rfl, rfl, rfl, rfl⟩

end Interface

end Qosmo.Sim
