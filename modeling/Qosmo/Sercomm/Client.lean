import Qosmo.Lib.PrefixCode
import Qosmo.Sercomm.Basic

/-!
# Qosmo.Sercomm.Client

The mobile's side of the L1CTL socket (`l1ctl_client_readable`, `l1ctl_sock.c`).

The mobile sends messages with a two-byte length in front. What the socket gives is
appended to an accumulator of 4096 bytes, every whole message is wrapped for the firmware
and handed to its UART, the unfinished tail waits for more. A chunk that does not fit behind
the tail empties the accumulator first; the tail is gone then, and with it the place where
the next message starts.

The copy of the ciphering key into `/dev/shm/calypso_kc`, which neither reads nor writes
this state, is left out.
-/

namespace Qosmo.Sercomm

open List

/-! ### Messages -/

/-- `(lp_buf[0] << 8) | lp_buf[1]`. -/
def msglen (hi lo : Byte) : Nat := hi.toNat <<< 8 ||| lo.toNat

/-- The first message of the accumulator and what follows it, if it is whole. -/
def readMessage : List Byte → Option (List Byte × List Byte)
  | hi :: lo :: rest =>
    if rest.length < msglen hi lo then none
    else some (rest.take (msglen hi lo), rest.drop (msglen hi lo))
  | _ => none

/-- A message as the client sends it. -/
def encodeMessage (m : List Byte) : List Byte :=
  BitVec.ofNat 8 (m.length >>> 8) :: BitVec.ofNat 8 m.length :: m

theorem msglen_ofNat {n : Nat} (h : n < 2 ^ 16) :
    msglen (BitVec.ofNat 8 (n >>> 8)) (BitVec.ofNat 8 n) = n := by
  unfold msglen
  rw [← Nat.shiftLeft_add_eq_or_of_lt (BitVec.isLt _), BitVec.toNat_ofNat, BitVec.toNat_ofNat,
    Nat.shiftLeft_eq, Nat.shiftRight_eq_div_pow]
  omega

theorem msglen_lt (hi lo : Byte) : msglen hi lo < 2 ^ 16 := by
  unfold msglen
  rw [← Nat.shiftLeft_add_eq_or_of_lt lo.isLt, Nat.shiftLeft_eq]
  have hhi := hi.isLt
  have hlo := lo.isLt
  omega

theorem ofNat_msglen (hi lo : Byte) :
    BitVec.ofNat 8 (msglen hi lo >>> 8) = hi ∧ BitVec.ofNat 8 (msglen hi lo) = lo := by
  have hhi := hi.isLt
  have hlo := lo.isLt
  unfold msglen
  rw [← Nat.shiftLeft_add_eq_or_of_lt hlo, Nat.shiftLeft_eq, Nat.shiftRight_eq_div_pow]
  refine ⟨BitVec.eq_of_toNat_eq ?_, BitVec.eq_of_toNat_eq ?_⟩
  · rw [BitVec.toNat_ofNat]
    omega
  · rw [BitVec.toNat_ofNat]
    omega

/-- The client's messages as a prefix code: any message whose length fits in two bytes. -/
def lengthPrefixed : PrefixCode Byte (List Byte) where
  Valid := fun m => m.length < 2 ^ 16
  encode := encodeMessage
  read := readMessage
  encode_ne_nil := fun m => List.cons_ne_nil _ _
  read_encode := fun m rest hm => by
    simp only [encodeMessage, List.cons_append, readMessage, msglen_ofNat hm]
    rw [if_neg (by simp), List.take_left, List.drop_left]
  of_read := fun {buf m rest} h => by
    unfold readMessage at h
    split at h
    · rename_i hi lo tail
      split at h
      · cases h
      · rename_i hle
        obtain ⟨rfl, rfl⟩ := Prod.mk.inj (Option.some.inj h)
        have hlen : (tail.take (msglen hi lo)).length = msglen hi lo := by
          rw [List.length_take]
          omega
        obtain ⟨hhi, hlo⟩ := ofNat_msglen hi lo
        refine ⟨by rw [hlen]; exact msglen_lt hi lo, ?_⟩
        rw [encodeMessage, hlen, hhi, hlo, List.cons_append, List.cons_append,
          List.take_append_drop]
    · cases h

/-! ### The client connection -/

/-- The part of `L1CTLSock` the client's direction uses: the accumulator
`lp_buf[0 .. lp_len)`, whether a client is connected, whether the modem UART is known. -/
structure Client where
  lpBuf : List Byte
  connected : Bool
  uart : Bool
  deriving Repr, DecidableEq

/-- `sizeof(lp_buf)`, and the most one `recv` returns. -/
def lpSize : Nat := 4096

/-- What `recv` gave. -/
inductive Recv
  /-- Nothing yet (`EAGAIN`). -/
  | again
  /-- Another error. -/
  | error
  /-- The client closed the connection. -/
  | closed
  /-- Bytes, at least one and at most `lpSize`. -/
  | data (tmp : List Byte)
  deriving Repr, DecidableEq

/-- A client was just accepted (`l1ctl_accept_cb`), the modem UART being known. -/
def accepted : Client := ⟨[], true, true⟩

/-- The frame injected for one message, if `sercomm_wrap` makes one. -/
def inject (uart : Bool) (payload : List Byte) : List (List Byte) :=
  if uart then (sercommWrap dlciL1ctl payload 1024).toList else []

/-- `l1ctl_client_readable`: the frames handed to `calypso_uart_receive`. -/
def clientReadable (s : Client) : Recv → Client × List (List Byte)
  | .again => (s, [])
  | .error => ({ s with lpBuf := [], connected := false }, [])
  | .closed => ({ s with lpBuf := [], connected := false }, [])
  | .data tmp =>
    let lpBuf := if s.lpBuf.length + tmp.length > lpSize then [] else s.lpBuf
    let r := lengthPrefixed.split (lpBuf ++ tmp)
    ({ s with lpBuf := r.2 }, r.1.flatMap (inject s.uart))

def client : Machine Client Recv (List Byte) := ⟨clientReadable⟩

/-- The bytes received fit behind the unfinished tail. -/
def NoOverflow (s : Client) : Recv → Prop
  | .data tmp => s.lpBuf.length + tmp.length ≤ lpSize
  | _ => True

instance decidableNoOverflow (s : Client) : ∀ r : Recv, Decidable (NoOverflow s r)
  | .data tmp => inferInstanceAs (Decidable (s.lpBuf.length + tmp.length ≤ lpSize))
  | .again | .error | .closed => isTrue trivial

/-! ### One frame per message -/

/-- The frame the firmware gets for a message. -/
def l1ctlFrame (m : List Byte) : List Byte := code.wrap (dlciL1ctl :: ctrl :: m)

theorem inject_eq (m : List Byte) :
    inject true m = if (l1ctlFrame m).length > 1024 then [] else [l1ctlFrame m] := by
  simp only [inject, if_true, sercommWrap_eq, put, length_nil, Nat.zero_add, nil_append]
  show (if (l1ctlFrame m).length > 1024 then none else some (l1ctlFrame m)).toList = _
  split <;> rfl

/-- 510 bytes, all escaped, are the most that fit in 1024. -/
theorem inject_of_length_le {m : List Byte} (hm : m.length ≤ 510) :
    inject true m = [l1ctlFrame m] := by
  have hstuff := Stuffing.stuff_length_le (c := code) m
  have hhead : ∀ b ∈ [dlciL1ctl, ctrl], code.stuffByte b = [b] := by decide
  have hlen : (l1ctlFrame m).length = 4 + (code.stuff m).length := by
    simp only [l1ctlFrame, Stuffing.wrap, Stuffing.stuff_cons, hhead _ mem_cons_self,
      hhead ctrl (by decide), length_cons, length_append, length_nil]
    omega
  rw [inject_eq, if_neg (by omega)]

theorem l1ctlFrame_injective {m m' : List Byte} (h : l1ctlFrame m = l1ctlFrame m') : m = m' := by
  have hdecode : ∀ f : List Byte, f ≠ [] → code.decode (code.wrap f) = [f] := by
    intro f hf
    have hframes : ∀ g ∈ [f], g ≠ [] := by simpa using hf
    simpa using Stuffing.decode_wraps hframes (not_mem_nil (a := code.flag))
  have heq := hdecode (dlciL1ctl :: ctrl :: m) (cons_ne_nil _ _)
  rw [show code.wrap (dlciL1ctl :: ctrl :: m) = code.wrap (dlciL1ctl :: ctrl :: m') from h,
    hdecode _ (cons_ne_nil _ _)] at heq
  simpa using heq.symm

/-! ### Every way of cutting the stream -/

/-- What one chunk does, when it fits and when it does not. -/
theorem step_data (s : Client) (tmp : List Byte) :
    client.step s (.data tmp) =
      let lpBuf := if s.lpBuf.length + tmp.length > lpSize then [] else s.lpBuf
      ({ s with lpBuf := (lengthPrefixed.split (lpBuf ++ tmp)).2 },
        (lengthPrefixed.split (lpBuf ++ tmp)).1.flatMap (inject s.uart)) := rfl

variable {chunks : List (List Byte)}

/-- With room at every chunk, the frames injected are those of the stream in one piece. -/
theorem trace_of_noOverflow {s : Client} (htail : lengthPrefixed.read s.lpBuf = none)
    (hroom : client.Along NoOverflow s (chunks.map .data)) :
    client.trace s (chunks.map .data)
      = (lengthPrefixed.split (s.lpBuf ++ chunks.flatten)).1.flatMap (inject s.uart) := by
  induction chunks generalizing s with
  | nil =>
    rw [flatten_nil, append_nil, PrefixCode.split_of_none htail]
    rfl
  | cons tmp chunks ih =>
    obtain ⟨hfits, hrest⟩ := hroom
    have hfits : s.lpBuf.length + tmp.length ≤ lpSize := hfits
    have hstep := step_data s tmp
    rw [if_neg (by omega)] at hstep
    rw [map_cons, Machine.trace_cons, flatten_cons, ← append_assoc,
      PrefixCode.split_append, flatMap_append]
    rw [hstep] at hrest ⊢
    rw [ih (lengthPrefixed.split_spec (s.lpBuf ++ tmp)).2.2 hrest]

/-- Every byte received is in a message handed on, in the tail, or lost in an overflow; and
an overflow loses at least one. -/
theorem bytes_accounted {s : Client} (hsize : ∀ tmp ∈ chunks, tmp.length ≤ lpSize) :
    ∃ (ms : List (List Byte)) (lost : Nat), client.trace s (chunks.map .data) = ms.flatMap
    (inject s.uart) ∧
      (ms.flatMap encodeMessage).length + lost ≤ s.lpBuf.length + chunks.flatten.length ∧
      (lost = 0 → client.Along NoOverflow s (chunks.map .data)) := by
  induction chunks generalizing s with
  | nil => exact ⟨[], 0, rfl, Nat.zero_le _, fun _ => trivial⟩
  | cons tmp chunks ih =>
    have hstep := step_data s tmp
    dsimp only at hstep
    generalize hkept : (if s.lpBuf.length + tmp.length > lpSize then [] else s.lpBuf) = kept at hstep
    obtain ⟨-, hsplit, -⟩ := lengthPrefixed.split_spec (kept ++ tmp)
    obtain ⟨ms, lost, htrace, hcount, hroom⟩ :=
      ih (s := (client.step s (.data tmp)).1) fun c hc => hsize c (mem_cons_of_mem tmp hc)
    rw [hstep] at htrace hcount hroom
    have hlen := congrArg List.length hsplit
    rw [length_append, length_append] at hlen
    refine ⟨(lengthPrefixed.split (kept ++ tmp)).1 ++ ms, s.lpBuf.length - kept.length + lost,
      ?_, ?_, ?_⟩
    · rw [map_cons, Machine.trace_cons, hstep, htrace, flatMap_append]
    · have hle : kept.length ≤ s.lpBuf.length := by
        rw [← hkept]
        split <;> simp
      rw [flatMap_append, length_append, flatten_cons, length_append]
      have hencode : ((lengthPrefixed.split (kept ++ tmp)).1.flatMap encodeMessage).length
          = ((lengthPrefixed.split (kept ++ tmp)).1.flatMap lengthPrefixed.encode).length := rfl
      dsimp only at hcount
      omega
    · intro hzero
      have hkeep : s.lpBuf.length + tmp.length ≤ lpSize := by
        -- an overflow would have thrown the whole tail away, and there was one
        by_contra hover
        have htmp := hsize tmp mem_cons_self
        rw [if_pos (by omega)] at hkept
        rw [← hkept, length_nil] at hzero
        omega
      refine ⟨hkeep, ?_⟩
      rw [hstep]
      exact hroom (by omega)

/-- Frames that are those of some messages come from at least as many bytes. -/
theorem length_le_of_frames {ms msgs : List (List Byte)}
    (h : ms.flatMap (inject true) = msgs.map l1ctlFrame) :
    (msgs.flatMap encodeMessage).length ≤ (ms.flatMap encodeMessage).length := by
  induction ms generalizing msgs with
  | nil =>
    obtain rfl : msgs = [] := by simpa using h.symm
    exact le_rfl
  | cons m ms ih =>
    rw [flatMap_cons, inject_eq] at h
    rw [flatMap_cons, length_append]
    split at h
    · exact (ih h).trans (Nat.le_add_left _ _)
    · cases msgs with
      | nil => cases h
      | cons m' msgs =>
        rw [map_cons, singleton_append, List.cons.injEq] at h
        obtain rfl := l1ctlFrame_injective h.1
        rw [flatMap_cons, length_append]
        exact Nat.add_le_add_left (ih h.2) _

/-- A message of the client: 1 to 510 bytes. -/
structure Message where
  bytes : List Byte
  bytes_pos : 0 < bytes.length
  bytes_le : bytes.length ≤ 510

def stream (msgs : List Message) : List Byte := msgs.flatMap fun m => encodeMessage m.bytes

def frames (msgs : List Message) : List (List Byte) := msgs.map fun m => l1ctlFrame m.bytes

theorem split_stream (msgs : List Message) :
    lengthPrefixed.split (stream msgs) = (msgs.map Message.bytes, []) := by
  have hvalid : ∀ m ∈ msgs.map Message.bytes, lengthPrefixed.Valid m := by
    intro m hm
    obtain ⟨msg, -, rfl⟩ := List.mem_map.mp hm
    have := msg.bytes_le
    show msg.bytes.length < 2 ^ 16
    omega
  have hrest : lengthPrefixed.read [] = none := rfl
  have hsplit := PrefixCode.split_encode hvalid hrest
  rw [append_nil, flatMap_map] at hsplit
  exact hsplit

theorem frames_injected (msgs : List Message) :
    (msgs.map Message.bytes).flatMap (inject true) = frames msgs := by
  induction msgs with
  | nil => rfl
  | cons m msgs ih =>
    rw [map_cons, flatMap_cons, inject_of_length_le m.bytes_le, ih]
    rfl

/-- A chunk that overflows the accumulator loses messages. -/
theorem trace_ne_of_overflow {msgs : List Message}
    (hstream : chunks.flatten = stream msgs) (hsize : ∀ tmp ∈ chunks, tmp.length ≤ lpSize)
    (hover : ¬ client.Along NoOverflow accepted (chunks.map .data)) :
    client.trace accepted (chunks.map .data) ≠ frames msgs := by
  intro heq
  obtain ⟨ms, lost, htrace, hcount, hroom⟩ := bytes_accounted (s := accepted) hsize
  have hle : (stream msgs).length ≤ (ms.flatMap encodeMessage).length := by
    have hframes : ms.flatMap (inject true) = (msgs.map Message.bytes).map l1ctlFrame := by
      rw [map_map]
      exact htrace.symm.trans heq
    have := length_le_of_frames hframes
    rwa [flatMap_map] at this
  rw [hstream] at hcount
  have hlost : lost = 0 := by
    have hempty : accepted.lpBuf.length = 0 := rfl
    omega
  exact hover (hroom hlost)

/-- **Every message, once and in order, however the stream is cut**, exactly when no chunk
overflows the accumulator behind the tail it finds there. -/
theorem messages_injected_iff (msgs : List Message) (chunks : List (List Byte))
    (hstream : chunks.flatten = stream msgs)
    (hsize : ∀ tmp ∈ chunks, 0 < tmp.length ∧ tmp.length ≤ lpSize) :
    client.trace accepted (chunks.map .data) = frames msgs ↔
      client.Along NoOverflow accepted (chunks.map .data) := by
  constructor
  · intro heq
    by_contra hover
    exact trace_ne_of_overflow hstream (fun tmp htmp => (hsize tmp htmp).2) hover heq
  · intro hroom
    rw [trace_of_noOverflow rfl hroom]
    show (lengthPrefixed.split chunks.flatten).1.flatMap (inject true) = frames msgs
    rw [hstream, split_stream]
    exact frames_injected msgs

/-- Two messages in three chunks, none of which ends where a message does. -/
theorem messages_injected_cut :
    client.trace accepted ([[0x00], [0x02, 0x0A, 0x0B, 0x00, 0x01], [0x0C]].map .data)
      = frames [⟨[0x0A, 0x0B], by decide, by decide⟩, ⟨[0x0C], by decide, by decide⟩] :=
  (messages_injected_iff _ [[0x00], [0x02, 0x0A, 0x0B, 0x00, 0x01], [0x0C]] (by decide)
    (by decide)).mpr (by decide)

/-- Eight messages of 510 bytes and one of a single byte, 4099 bytes in all. -/
def burst : List Message :=
  List.replicate 8 ⟨List.replicate 510 0x00, by rw [List.length_replicate]; decide,
    by rw [List.length_replicate]⟩ ++ [⟨[0x00], by decide, by decide⟩]

/-- The client sends the first three bytes, then, in one go, the 4096 others: the second
chunk does not fit behind the first, and messages are lost. -/
theorem messages_lost :
    ∃ (msgs : List Message) (chunks : List (List Byte)), chunks.flatten = stream msgs ∧
      (∀ tmp ∈ chunks, 0 < tmp.length ∧ tmp.length ≤ lpSize) ∧
      client.trace accepted (chunks.map .data) ≠ frames msgs := by
  have hlen : (stream burst).length = 4099 := by decide +kernel
  have hsize : ∀ tmp ∈ [(stream burst).take 3, (stream burst).drop 3],
      0 < tmp.length ∧ tmp.length ≤ lpSize := by
    simp [hlen, lpSize]
  have hflatten : [(stream burst).take 3, (stream burst).drop 3].flatten = stream burst := by
    simp
  refine ⟨burst, [(stream burst).take 3, (stream burst).drop 3], hflatten, hsize, ?_⟩
  refine trace_ne_of_overflow hflatten (fun tmp htmp => (hsize tmp htmp).2) ?_
  decide +kernel

end Qosmo.Sercomm
