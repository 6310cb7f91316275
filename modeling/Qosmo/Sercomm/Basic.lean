import Qosmo.Basic
import Qosmo.Lib.Framing

/-!
# Qosmo.Sercomm.Basic

The sercomm framing of the serial line, as the emulator writes and reads it.

`sercomm_wrap` (`l1ctl_sock.c`) puts a DLCI, the control byte 0x03 and a payload between
two flags, escaping flags and escapes. Two receivers read such streams, the L1CTL socket's
and the dedicated-channel tap's (`calypso_dcch_tap.c`); they are one automaton with a
buffer of 512 bytes each (`rxByte`).

The main result is that they undo `sercomm_wrap` on any concatenation of wrapped frames
(`wrapped_frames_received`).
-/

namespace Qosmo.Sercomm

open Framing List Stuffing

/-! ### Writing a frame -/

/-- `SERCOMM_FLAG`, `SERCOMM_ESCAPE` and `SERCOMM_ESCAPE_XOR`. -/
def flag : Byte := 0x7E
def escape : Byte := 0x7D
def escapeXor : Byte := 0x20

/-- Sercomm as a stuffing code. -/
def code : Stuffing Byte where
  flag := flag
  esc := escape
  mask := fun b => b ^^^ escapeXor
  mask_mask := fun b => by rw [BitVec.xor_assoc, BitVec.xor_self, BitVec.xor_zero]
  esc_ne_flag := by decide

def dlciL1ctl : Byte := 5

/-- The control byte of every frame. -/
def ctrl : Byte := 0x03

/-- Write `bs` at the end of `out`, an array of `outSize` bytes; `none` where
`sercomm_wrap` returns -1. -/
def put (outSize : Nat) (out bs : List Byte) : Option (List Byte) :=
  if out.length + bs.length > outSize then none else some (out ++ bs)

def putByte (outSize : Nat) (out : List Byte) (b : Byte) : Option (List Byte) :=
  if b = flag ∨ b = escape then put outSize out [escape, b ^^^ escapeXor]
  else put outSize out [b]

def sercommWrap (dlci : Byte) (payload : List Byte) (outSize : Nat) : Option (List Byte) := do
  let out ← put outSize [] [flag]
  let out ← [dlci, ctrl].foldlM (putByte outSize) out
  let out ← payload.foldlM (putByte outSize) out
  put outSize out [flag]

/-! ### Reading a stream -/

/-- The receivers' automaton, with a buffer of `size` bytes: the frame it completes at this
byte, if any. A flag with an empty buffer completes nothing. -/
def rxByte (size : Nat) (s : Receiver Byte) (b : Byte) : Receiver Byte × List (List Byte) :=
  match s.mode with
  | .idle => if b = flag then (⟨.frame, []⟩, []) else (s, [])
  | .frame =>
    if b = flag then (⟨.frame, []⟩, if 0 < s.buf.length then [s.buf] else [])
    else if b = escape then (⟨.escape, s.buf⟩, [])
    else (⟨.frame, if s.buf.length < size then s.buf ++ [b] else s.buf⟩, [])
  | .escape =>
    (⟨.frame, if s.buf.length < size then s.buf ++ [b ^^^ escapeXor] else s.buf⟩, [])

/-- `l1ctl_sock_uart_tx_byte`, up to the call of `sercomm_frame_complete`. -/
def l1ctlSockUartTxByte : Receiver Byte → Byte → Receiver Byte × List (List Byte) := rxByte 512

/-- `calypso_dcch_tap_tx_byte`, up to the call of `trame_complete`. -/
def dcchTapTxByte : Receiver Byte → Byte → Receiver Byte × List (List Byte) := rxByte 512

def rxInit : Receiver Byte := ⟨.idle, []⟩

/-- The receivers, fed byte by byte. -/
def l1ctlSock : Machine (Receiver Byte) Byte (List Byte) := ⟨l1ctlSockUartTxByte⟩
def dcchTap : Machine (Receiver Byte) Byte (List Byte) := ⟨dcchTapTxByte⟩

/-! ### `sercomm_wrap` wraps -/

theorem put_eq_some {outSize : Nat} {out bs w : List Byte} (h : put outSize out bs = some w) :
    w = out ++ bs := by
  unfold put at h
  split at h
  · cases h
  · exact (Option.some.inj h).symm

theorem putByte_eq (outSize : Nat) (out : List Byte) (b : Byte) :
    putByte outSize out b = put outSize out (code.stuffByte b) := by
  unfold putByte Stuffing.stuffByte
  show _ = put outSize out (if b = flag ∨ b = escape then [escape, b ^^^ escapeXor] else [b])
  split <;> rfl

theorem put_bind_put (outSize : Nat) (out as bs : List Byte) :
    (put outSize out as >>= fun o => put outSize o bs) = put outSize out (as ++ bs) := by
  by_cases hfits : out.length + as.length > outSize
  · have hall : out.length + (as ++ bs).length > outSize := by
      rw [length_append]
      omega
    rw [put, if_pos hfits, put, if_pos hall]
    rfl
  · rw [put, if_neg hfits]
    show put outSize (out ++ as) bs = put outSize out (as ++ bs)
    simp only [put, length_append, append_assoc, Nat.add_assoc]

/-- A write followed by the bytes of a frame, one by one, is one write of them stuffed. -/
theorem put_bind_foldlM (outSize : Nat) (out as bs : List Byte) :
    (put outSize out as >>= fun o => bs.foldlM (putByte outSize) o)
      = put outSize out (as ++ code.stuff bs) := by
  induction bs generalizing as with
  | nil =>
    rw [stuff_nil, append_nil]
    exact bind_pure _
  | cons b bs ih =>
    rw [stuff_cons, ← append_assoc, ← ih, ← put_bind_put, bind_assoc]
    simp only [foldlM_cons, putByte_eq]

/-- **What `sercomm_wrap` returns**: the wrapped frame if it fits, else nothing. -/
theorem sercommWrap_eq (dlci : Byte) (payload : List Byte) (outSize : Nat) :
    sercommWrap dlci payload outSize
      = put outSize [] (code.wrap (dlci :: ctrl :: payload)) := by
  have hwrap : code.wrap (dlci :: ctrl :: payload)
      = [flag] ++ code.stuff [dlci, ctrl] ++ code.stuff payload ++ [flag] := by
    simp [Stuffing.wrap, code]
  rw [hwrap, ← put_bind_put, ← put_bind_foldlM, ← put_bind_foldlM, bind_assoc, bind_assoc]
  rfl

/-! ### The receivers undo it -/

/-- Not just a flag after another. -/
def nonempty (f : List Byte) : Bool := decide (0 < f.length)

/-- The receivers are the bounded receiver of the library, empty frames left out. -/
theorem rxByte_eq (size : Nat) :
    (⟨rxByte size⟩ : Machine _ _ _) = (code.bounded size).filterObs nonempty := by
  unfold Machine.filterObs
  congr 1
  funext s b
  have hreceive : (code.bounded size).step s b
      = code.receive (fun buf => decide (buf.length < size)) s b := rfl
  rw [hreceive]
  obtain ⟨m, buf⟩ := s
  cases m with
  | idle =>
    by_cases hflag : b = flag <;> simp [rxByte, Stuffing.receive, code, hflag]
  | frame =>
    by_cases hflag : b = flag
    · simp [rxByte, Stuffing.receive, code, hflag, nonempty, filter_cons]
    · by_cases hesc : b = escape
      · simp [rxByte, Stuffing.receive, code, hesc, show escape ≠ flag by decide]
      · simp [rxByte, Stuffing.receive, code, hflag, hesc, Stuffing.store]
  | escape => simp [rxByte, Stuffing.receive, code, Stuffing.store]

/-- What goes into one frame: a DLCI and a payload of 1 to 510 bytes. -/
structure Packet where
  dlci : Byte
  payload : List Byte
  payload_pos : 0 < payload.length
  payload_le : payload.length ≤ 510

/-- The decoded frame: DLCI, control byte, payload. -/
def Packet.frame (p : Packet) : List Byte := p.dlci :: ctrl :: p.payload

theorem Packet.frame_length_le (p : Packet) : p.frame.length ≤ 512 := by
  have := p.payload_le
  simp only [frame, length_cons]
  omega

theorem Packet.nonempty_frame (p : Packet) : nonempty p.frame := by
  simp [nonempty, frame]

/-- `w` is what `sercomm_wrap` made of the packet, in an array of some size. -/
def Wrapped (p : Packet) (w : List Byte) : Prop :=
  ∃ outSize, sercommWrap p.dlci p.payload outSize = some w

theorem Wrapped.eq {p : Packet} {w : List Byte} (h : Wrapped p w) : w = code.wrap p.frame := by
  obtain ⟨outSize, h⟩ := h
  rw [sercommWrap_eq] at h
  exact put_eq_some h

/-- Wrapped packets one after the other: the closing flag of one and the opening flag of the
next both there, or one flag for both. -/
inductive Chain : List Packet → List Byte → Prop
  | nil : Chain [] []
  | doubled {p : Packet} {ps : List Packet} {w s : List Byte} :
      Wrapped p w → Chain ps s → Chain (p :: ps) (w ++ s)
  | shared {p q : Packet} {ps : List Packet} {w s : List Byte} :
      Wrapped p w → Chain (q :: ps) s → Chain (p :: q :: ps) (w.dropLast ++ s)

/-- Behind its opening flag a chain holds exactly its frames. -/
theorem Chain.trace {ps : List Packet} {s : List Byte} (h : Chain ps s) :
    (ps = [] ∧ s = []) ∨ ∃ t, s = flag :: t ∧
      (code.unbounded.trace ⟨.frame, []⟩ t).filter nonempty = ps.map Packet.frame := by
  induction h with
  | nil => exact .inl ⟨rfl, rfl⟩
  | @doubled p ps w s hw _ ih =>
    refine .inr ⟨code.stuff p.frame ++ flag :: s, by simp [hw.eq, Stuffing.wrap, code], ?_⟩
    rw [show flag = code.flag from rfl, trace_stuff, filter_cons_of_pos
      p.nonempty_frame, map_cons]
    congr 1
    rcases ih with ⟨rfl, rfl⟩ | ⟨t, rfl, ht⟩
    · rfl
    · rw [show flag = code.flag from rfl, trace_flag]
      exact ht
  | @shared p q ps w s hw _ ih =>
    obtain ⟨hnil, -⟩ | ⟨t, rfl, ht⟩ := ih
    · cases hnil
    · have hdrop : w.dropLast = flag :: code.stuff p.frame := by
        rw [hw.eq, Stuffing.wrap, ← cons_append, dropLast_concat]
        rfl
      refine .inr ⟨code.stuff p.frame ++ flag :: t, by simp [hdrop], ?_⟩
      rw [show flag = code.flag from rfl, trace_stuff, filter_cons_of_pos
        p.nonempty_frame, ht]
      rfl

/-- What either receiver makes of a chain, wherever garbage stands before it. -/
theorem rx_chain {ps : List Packet} {garbage s : List Byte} (hchain : Chain ps s)
    (hgarbage : flag ∉ garbage) :
    (⟨rxByte 512⟩ : Machine _ _ _).trace rxInit (garbage ++ s) = ps.map Packet.frame := by
  rw [rxByte_eq, Machine.filterObs_trace]
  rcases hchain.trace with ⟨rfl, rfl⟩ | ⟨t, rfl, ht⟩
  · rw [append_nil]
    show List.filter _ ((code.receiver _).trace ⟨.idle, []⟩ garbage) = _
    rw [(receive_idle hgarbage []).1]
    rfl
  · show List.filter _ ((code.receiver _).trace ⟨.idle, []⟩ (garbage ++ code.flag :: t)) = _
    rw [trace_idle_flag hgarbage]
    -- no frame of the chain is longer than the buffer
    have hfits : ∀ f ∈ code.unbounded.trace ⟨.frame, []⟩ t, f.length ≤ 512 := by
      intro f hf
      by_cases hpos : nonempty f
      · have hmem : f ∈ ps.map Packet.frame := by
          rw [← ht]
          exact List.mem_filter.mpr ⟨hf, hpos⟩
        obtain ⟨p, -, rfl⟩ := List.mem_map.mp hmem
        exact p.frame_length_le
      · simp only [nonempty, decide_eq_true_eq] at hpos
        omega
    show List.filter _ ((code.bounded 512).trace ⟨.frame, []⟩ t) = _
    rw [bounded_trace_eq hfits, ht]

/-- **Round trip.** Any packets wrapped by `sercomm_wrap` and sent one after the other, with
flags shared or doubled and any garbage before the first flag, come out of both receivers as
those frames, each once and in order. -/
theorem wrapped_frames_received (ps : List Packet) (garbage s : List Byte) (hchain : Chain ps s)
    (hgarbage : flag ∉ garbage) :
    l1ctlSock.trace rxInit (garbage ++ s) = ps.map Packet.frame ∧
      dcchTap.trace rxInit (garbage ++ s) = ps.map Packet.frame :=
  ⟨rx_chain hchain hgarbage, rx_chain hchain hgarbage⟩

/-- Two packets that share a flag, the first one made of a flag and an escape. -/
theorem wrapped_frames_received_shared :
    l1ctlSock.trace rxInit ([0x7D, 0x00] ++
        ([0x7E, 0x7D, 0x5E, 0x03, 0x7D, 0x5E, 0x7D, 0x5D, 0x7E].dropLast
          ++ ([0x7E, 0x05, 0x03, 0x01, 0x7E] ++ [])))
      = [[0x7E, 0x03, 0x7E, 0x7D], [0x05, 0x03, 0x01]] :=
  (wrapped_frames_received
    [⟨0x7E, [0x7E, 0x7D], by decide, by decide⟩, ⟨0x05, [0x01], by decide, by decide⟩]
    [0x7D, 0x00] _ (.shared ⟨1024, by decide⟩ (.doubled ⟨1024, by decide⟩ .nil)) (by decide)).1

end Qosmo.Sercomm
