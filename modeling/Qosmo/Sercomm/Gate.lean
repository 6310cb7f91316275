import Mathlib.Data.List.TakeWhile
import Qosmo.Sercomm.Basic
import Qosmo.Uart.Fifo

/-!
# Qosmo.Sercomm.Gate

The sercomm router in front of the modem UART (`sercomm_gate.c`).

The gate decodes the stream that comes from the host, keeps the TRXC frames (DLCI 4) for
itself, and wraps every other frame again into the receive FIFO of the UART, so that the
firmware's own driver parses it. Before the first flag it lets everything through.

The gate's decision at a byte (`gateStep`) does not depend on the UART, so what it writes is
a function of the stream alone (`automaton`): the bytes before the first flag, then the
frames kept, wrapped (`gateBytes_idle`). The rest is that a FIFO with room takes all of it.
The reply to a TRXC frame goes to the character backend, not to the FIFO; here the frame is
only shown (`Qosmo.Sercomm.Trxc` has the reply).
-/

namespace Qosmo.Sercomm

open Framing List Machine

/-! ### The gate -/

def gateBufSize : Nat := 512

def dlciTrxc : Byte := 4

/-- What the gate does with a byte, beside collecting it. -/
inductive Action
  /-- A byte before the first flag goes through. -/
  | raw (b : Byte)
  /-- A TRXC frame is answered; the payload is what `gate_trxc_handle` gets. -/
  | trxc (payload : List Byte)
  /-- Another frame is pushed to the FIFO. -/
  | push (frame : List Byte)
  deriving Repr, DecidableEq

/-- `sc_buf[sc_len++] = b`, as long as there is room. -/
def gateStore (buf : List Byte) (b : Byte) : List Byte :=
  if buf.length < gateBufSize then buf ++ [b] else buf

/-- What ends at a flag: a frame of two bytes or more, to be answered or pushed. -/
def gateFrame (buf : List Byte) : List Action :=
  if 2 ≤ buf.length then
    if buf.head? = some dlciTrxc then [.trxc (buf.drop 2)] else [.push buf]
  else []

/-- One iteration of `sercomm_gate_feed`. -/
def gateStep (r : Receiver Byte) (b : Byte) : Receiver Byte × List Action :=
  match r.mode with
  | .idle => if b = flag then (⟨.frame, []⟩, []) else (r, [.raw b])
  | .escape => (⟨.frame, gateStore r.buf (b ^^^ escapeXor)⟩, [])
  | .frame =>
    if b = flag then (⟨.frame, []⟩, gateFrame r.buf)
    else if b = escape then (⟨.escape, r.buf⟩, [])
    else (⟨.frame, gateStore r.buf b⟩, [])

/-- The gate's decisions along a stream. -/
def automaton : Machine (Receiver Byte) Byte Action := ⟨gateStep⟩

/-- `calypso_uart_inject_raw` of each byte in turn. -/
def injectEach (u : Uart) : List Byte → Uart × List Uart.Obs
  | [] => (u, [])
  | b :: bs =>
    ((injectEach (u.injectRaw [b]).1 bs).1, (u.injectRaw [b]).2 ++ (injectEach (u.injectRaw [b]).1 bs).2)

def gatePushToFifo (u : Uart) (frame : List Byte) : Uart × List Uart.Obs :=
  injectEach u ([flag]
    ++ frame.flatMap (fun c => if c = flag ∨ c = escape then [escape, c ^^^ escapeXor] else [c])
    ++ [flag])

/-- The gate and the UART it feeds. -/
structure Gate where
  rx : Receiver Byte
  uart : Uart

namespace Gate

inductive Obs
  /-- The gate wrote to the FIFO. -/
  | fifo (o : Uart.Obs)
  /-- The gate answered a TRXC frame. -/
  | trxc (payload : List Byte)
  /-- Something else happened at the UART. -/
  | port (o : Uart.Obs)
  deriving Repr, DecidableEq

def act (u : Uart) : Action → Uart × List Obs
  | .raw b => ((u.injectRaw [b]).1, (u.injectRaw [b]).2.map .fifo)
  | .trxc payload => (u, [.trxc payload])
  | .push frame => ((gatePushToFifo u frame).1, (gatePushToFifo u frame).2.map .fifo)

/-- The actions of one byte, in order. -/
def actAll (u : Uart) : List Action → Uart × List Obs
  | [] => (u, [])
  | a :: as => ((actAll (act u a).1 as).1, (act u a).2 ++ (actAll (act u a).1 as).2)

def byte (g : Gate) (b : Byte) : Gate × List Obs :=
  let t := gateStep g.rx b
  (⟨t.1, (actAll g.uart t.2).1⟩, (actAll g.uart t.2).2)

def bytes : Machine Gate Byte Obs := ⟨byte⟩

/-- Calls: a chunk for the gate, or anything else that happens at the UART. -/
inductive Event
  | feed (buf : List Byte)
  | port (e : Uart.Event)
  deriving Repr, DecidableEq

/-- One call; `feed` is `sercomm_gate_feed`. -/
def step (g : Gate) : Event → Gate × List Obs
  | .feed buf => bytes.run g buf
  | .port e => ({ g with uart := (g.uart.step e).1 }, (g.uart.step e).2.map .port)

def machine : Machine Gate Event Obs := ⟨step⟩

def init (label : Label) : Gate := ⟨⟨.idle, []⟩, .reset label⟩

/-- The bytes a call feeds to the gate. -/
def Event.chunk : Event → List Byte
  | .feed buf => buf
  | .port _ => []

/-- The stream fed to the gate. -/
def input (es : List Event) : List Byte := es.flatMap Event.chunk

def Obs.written : Obs → List Byte
  | .fifo (.queue op) => op.acceptedWords
  | _ => []

def written (os : List Obs) : List Byte := os.flatMap Obs.written

/-! ### A FIFO with room takes everything -/

end Gate

def Action.bytes : Action → List Byte
  | .raw b => [b]
  | .trxc _ => []
  | .push frame => code.wrap frame

/-- The bytes the gate writes along a stream, from a given state. -/
def gateBytes (r : Receiver Byte) (buf : List Byte) : List Byte :=
  (automaton.trace r buf).flatMap Action.bytes

namespace Gate

theorem written_append (os os' : List Obs) : written (os ++ os') = written os ++ written os' :=
  flatMap_append

variable {u : Uart}

theorem injectRaw_one (hroom : u.rx.count < RxFifo.size) (b : Byte) :
    (u.injectRaw [b]).2 = [.queue (.accept [b])] ∧
    (u.injectRaw [b]).1.rx.count = u.rx.count + 1 := by
  have hpush : u.fifoPush b = ({ u with rx := u.rx.push b }, .queue (.accept [b])) := by
    unfold Uart.fifoPush
    rw [if_neg (by omega)]
  refine ⟨?_, ?_⟩
  · show [(u.fifoPush b).2] = _
    rw [hpush]
  · rw [Uart.injectRaw_rx]
    show (u.fifoPush b).1.rx.count = _
    rw [hpush]
    rfl

theorem injectEach_spec {bs : List Byte} (hroom : u.rx.count + bs.length ≤ RxFifo.size) :
    written ((injectEach u bs).2.map .fifo) = bs ∧
      (injectEach u bs).1.rx.count = u.rx.count + bs.length := by
  induction bs generalizing u with
  | nil => exact ⟨rfl, rfl⟩
  | cons b bs ih =>
    rw [length_cons] at hroom
    obtain ⟨hobs, hcount⟩ := injectRaw_one (u := u) (by omega) b
    obtain ⟨hwritten, hcount'⟩ := ih (u := (u.injectRaw [b]).1) (by omega)
    refine ⟨?_, ?_⟩
    · simp only [injectEach, hobs, map_append, written_append, hwritten]
      rfl
    · simp only [injectEach, length_cons]
      omega

/-- `gate_push_to_fifo` writes the frame wrapped. -/
theorem gatePushToFifo_eq (u : Uart) (frame : List Byte) :
    gatePushToFifo u frame = injectEach u (code.wrap frame) := rfl

theorem act_spec {a : Action} (hroom : u.rx.count + a.bytes.length ≤ RxFifo.size) :
    written (act u a).2 = a.bytes ∧ (act u a).1.rx.count = u.rx.count + a.bytes.length := by
  cases a with
  | raw b =>
    obtain ⟨hobs, hcount⟩ := injectRaw_one (u := u) hroom b
    refine ⟨?_, hcount⟩
    simp only [act, hobs]
    rfl
  | trxc payload => exact ⟨rfl, rfl⟩
  | push frame =>
    simp only [act, gatePushToFifo_eq]
    exact injectEach_spec hroom

theorem actAll_spec {as : List Action}
    (hroom : u.rx.count + (as.flatMap Action.bytes).length ≤ RxFifo.size) :
    written (actAll u as).2 = as.flatMap Action.bytes ∧
      (actAll u as).1.rx.count = u.rx.count + (as.flatMap Action.bytes).length := by
  induction as generalizing u with
  | nil => exact ⟨rfl, rfl⟩
  | cons a as ih =>
    rw [flatMap_cons, length_append] at hroom ⊢
    obtain ⟨hwritten, hcount⟩ := act_spec (u := u) (a := a) (by omega)
    obtain ⟨hwritten', hcount'⟩ := ih (u := (act u a).1) (by omega)
    refine ⟨?_, ?_⟩
    · simp only [actAll, written_append, hwritten, hwritten']
    · simp only [actAll]
      omega

/-- The FIFO has room for what the gate makes of a chunk. -/
def Room (g : Gate) : Event → Prop
  | .feed buf => g.uart.rx.count + (gateBytes g.rx buf).length ≤ RxFifo.size
  | .port _ => True

instance decidableRoom (g : Gate) : ∀ e : Event, Decidable (Room g e)
  | .feed buf =>
    inferInstanceAs (Decidable (g.uart.rx.count + (gateBytes g.rx buf).length ≤ RxFifo.size))
  | .port _ => isTrue trivial

/-- A chunk with room: the FIFO gets what the automaton writes, and the gate follows it. -/
theorem feed_spec {g : Gate} {buf : List Byte}
    (hroom : g.uart.rx.count + (gateBytes g.rx buf).length ≤ RxFifo.size) :
    written (bytes.trace g buf) = gateBytes g.rx buf ∧
      (bytes.final g buf).rx = automaton.final g.rx buf := by
  induction buf generalizing g with
  | nil => exact ⟨rfl, rfl⟩
  | cons b buf ih =>
    have hcons : gateBytes g.rx (b :: buf)
        = (gateStep g.rx b).2.flatMap Action.bytes ++ gateBytes (gateStep g.rx b).1 buf := by
      simp only [gateBytes, trace_cons, flatMap_append]
      rfl
    rw [hcons, length_append] at hroom
    have hfits : g.uart.rx.count + ((gateStep g.rx b).2.flatMap Action.bytes).length
        ≤ RxFifo.size := by omega
    obtain ⟨hwritten, hcount⟩ := actAll_spec hfits
    obtain ⟨hwritten', hfinal⟩ := ih (g := (byte g b).1) (by
      show (actAll g.uart (gateStep g.rx b).2).1.rx.count + (gateBytes (gateStep g.rx b).1 buf).length
        ≤ RxFifo.size
      omega)
    refine ⟨?_, hfinal⟩
    rw [trace_cons, written_append, hcons]
    exact congrArg₂ (· ++ ·) hwritten hwritten'

theorem written_port (os : List Uart.Obs) : written (os.map .port) = [] := by
  induction os with
  | nil => rfl
  | cons o os ih => exact ih

/-- **Chunks do not matter.** Over any calls for which the FIFO has room, it gets from the
gate what the automaton writes for the whole stream. -/
theorem written_eq {g : Gate} {es : List Event} (hroom : machine.Along Room g es) :
    written (machine.trace g es) = gateBytes g.rx (input es) := by
  induction es generalizing g with
  | nil => rfl
  | cons e es ih =>
    rw [trace_cons, written_append, ih hroom.2]
    cases e with
    | feed buf =>
      obtain ⟨hwritten, hfinal⟩ := feed_spec hroom.1
      show written (bytes.trace g buf) ++ gateBytes (bytes.final g buf).rx (input es)
        = gateBytes g.rx (buf ++ input es)
      rw [hwritten, hfinal]
      simp only [gateBytes, trace_append, flatMap_append]
    | port e =>
      show written ((g.uart.step e).2.map .port) ++ gateBytes g.rx (input es)
        = gateBytes g.rx (input es)
      rw [written_port]
      rfl

/-! ### What the automaton writes -/

/-- The frames the gate passes on: two bytes at least, and not for TRXC. -/
def keep (f : List Byte) : Bool := decide (2 ≤ f.length) && f.head? != some dlciTrxc

/-- The frames that end along a stream write what is kept of them, wrapped. -/
theorem gateFrame_bytes (fs : List (List Byte)) :
    (fs.flatMap gateFrame).flatMap Action.bytes = (fs.filter keep).flatMap code.wrap := by
  induction fs with
  | nil => rfl
  | cons f fs ih =>
    have hone : (gateFrame f).flatMap Action.bytes = ([f].filter keep).flatMap code.wrap := by
      unfold gateFrame
      by_cases hlen : 2 ≤ f.length
      · by_cases htrxc : f.head? = some dlciTrxc <;> simp [keep, hlen, htrxc, Action.bytes]
      · simp [keep, hlen]
    rw [flatMap_cons, flatMap_append, hone, ih, ← flatMap_append,
      ← filter_append]
    rfl

/-- Inside the stream the gate moves as the bounded receiver does, and acts on the frames
the receiver hands over. -/
theorem gateStep_open {r : Receiver Byte} (hr : r.mode ≠ .idle) (b : Byte) :
    (gateStep r b).1 = ((code.bounded gateBufSize).step r b).1 ∧
      (gateStep r b).2 = ((code.bounded gateBufSize).step r b).2.flatMap gateFrame ∧
      (gateStep r b).1.mode ≠ .idle := by
  have hreceive : (code.bounded gateBufSize).step r b
      = code.receive (fun buf => decide (buf.length < gateBufSize)) r b := rfl
  rw [hreceive]
  obtain ⟨m, buf⟩ := r
  cases m with
  | idle => exact absurd rfl hr
  | escape => simp [gateStep, gateStore, Stuffing.receive, Stuffing.store, code]
  | frame =>
    by_cases hflag : b = flag
    · simp [gateStep, Stuffing.receive, code, hflag]
    · by_cases hesc : b = escape
      · simp [gateStep, Stuffing.receive, code, hesc, show escape ≠ flag by decide]
      · simp [gateStep, gateStore, Stuffing.receive, Stuffing.store, code, hflag, hesc]

theorem gateBytes_open {r : Receiver Byte} (hr : r.mode ≠ .idle) (buf : List Byte) :
    gateBytes r buf
      = (((code.bounded gateBufSize).trace r buf).filter keep).flatMap code.wrap := by
  induction buf generalizing r with
  | nil => rfl
  | cons b buf ih =>
    obtain ⟨hnext, hacts, hmode⟩ := gateStep_open hr b
    have hrest := ih hmode
    unfold gateBytes at hrest ⊢
    rw [trace_cons, trace_cons, flatMap_append, filter_append,
      flatMap_append, ← hnext, ← gateFrame_bytes, ← hacts]
    exact congrArg _ hrest

/-- From the first byte on: what stands before the first flag, then the frames kept. -/
theorem gateBytes_idle (buf : List Byte) :
    gateBytes ⟨.idle, []⟩ buf = buf.takeWhile (· != flag)
      ++ (((code.bounded gateBufSize).trace ⟨.idle, []⟩ buf).filter keep).flatMap code.wrap := by
  induction buf with
  | nil => rfl
  | cons b buf ih =>
    have hreceive : (code.bounded gateBufSize).step ⟨.idle, []⟩ b
        = if b = flag then (⟨.frame, []⟩, []) else (⟨.idle, []⟩, []) := rfl
    have hgate : automaton.step ⟨.idle, []⟩ b
        = if b = flag then (⟨.frame, []⟩, []) else (⟨.idle, []⟩, [.raw b]) := rfl
    by_cases hflag : b = flag
    · rw [if_pos hflag] at hreceive hgate
      have hopen := gateBytes_open (r := ⟨.frame, []⟩) (by simp) buf
      unfold gateBytes at hopen ⊢
      rw [trace_cons, trace_cons, hgate, hreceive]
      simp [hflag, hopen]
    · rw [if_neg hflag] at hreceive hgate
      unfold gateBytes at ih ⊢
      rw [trace_cons, trace_cons, hgate, hreceive]
      simp [hflag, ih, Action.bytes]

/-- Frames of at most 512 bytes: of those that are not empty the gate sees what the decoded
stream has. -/
theorem bounded_frames {p : List Byte → Bool} (hp : p [] = false) {buf : List Byte}
    (hlen : ∀ f ∈ code.decode buf, f.length ≤ gateBufSize) :
    ((code.bounded gateBufSize).trace ⟨.idle, []⟩ buf).filter p = (code.decode buf).filter p := by
  have hfits : ∀ f ∈ code.unbounded.trace ⟨.idle, []⟩ buf, f.length ≤ gateBufSize := by
    intro f hf
    by_cases hpos : 0 < f.length
    · exact hlen f (List.mem_filter.mpr ⟨hf, decide_eq_true hpos⟩)
    · omega
  rw [Stuffing.bounded_trace_eq hfits, Stuffing.decode, filter_filter]
  refine filter_congr fun f _ => ?_
  cases f with
  | nil => rw [hp, Bool.false_and]
  | cons b bs => simp

/-- **The gate forwards frames.** However the stream is cut, as long as the FIFO has room and
no decoded frame exceeds 512 bytes, decoding what the gate wrote gives exactly the decoded
frames of two bytes or more that are not for TRXC, and what stood before the first flag went
through as it was. -/
theorem gate_forwards_frames (label : Label) (es : List Event)
    (hroom : machine.Along Room (init label) es)
    (hlen : ∀ f ∈ code.decode (input es), f.length ≤ gateBufSize) :
    let out := written (machine.trace (init label) es)
    code.decode out = (code.decode (input es)).filter keep ∧
      out = (input es).takeWhile (· != flag)
        ++ ((code.decode (input es)).filter keep).flatMap code.wrap := by
  intro out
  have hout : out = (input es).takeWhile (· != flag)
      ++ ((code.decode (input es)).filter keep).flatMap code.wrap := by
    show written (machine.trace (init label) es) = _
    rw [written_eq hroom, ← bounded_frames rfl hlen]
    exact gateBytes_idle (input es)
  refine ⟨?_, hout⟩
  rw [hout]
  refine Stuffing.decode_wraps ?_ ?_
  · intro f hf
    have hkeep := (List.mem_filter.mp hf).2
    simp only [keep, Bool.and_eq_true, decide_eq_true_eq] at hkeep
    rintro rfl
    simp at hkeep
  · intro hmem
    have := mem_takeWhile_imp hmem
    simp [code] at this

/-- A console byte, a TRXC frame and an L1CTL frame, in two chunks. -/
theorem gate_forwards_l1ctl :
    code.decode (written (machine.trace (init .modem)
        [.feed [0x41, 0x7E, 0x04, 0x03, 0x7E, 0x05], .feed [0x03, 0x7D, 0x5E, 0x7E]]))
      = [[0x05, 0x03, 0x7E]] :=
  (gate_forwards_frames .modem
    [.feed [0x41, 0x7E, 0x04, 0x03, 0x7E, 0x05], .feed [0x03, 0x7D, 0x5E, 0x7E]]
    (by decide) (by decide)).1

end Gate

end Qosmo.Sercomm
